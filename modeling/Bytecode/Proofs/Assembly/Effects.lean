import Mathlib
import Bytecode.Assembler.Emission
import Bytecode.Proofs.Outcome
import Bytecode.Proofs.Typing

/-!
# Effects of assembly

What each request to an assembler can do, said once. A request that succeeds writes one
instruction, moves the stack by the typing rule of that instruction, and notes the stack at the
label to which the instruction jumps. A request that fails may have taken values from the stack, and
nothing else; only a static field of type void is refused after its instruction was written.

## Main definitions

* `Emission.instruction`: the instruction that a request writes
* `Emission.member?`, `Emission.memberType?`: the member to which a request refers
* `Emitted`, `Refused`: the outcomes of a request
* `Bound`: the outcome of binding a label

## Main results

* `Emit.ends_emission`: a request ends as `Emitted` or as `Refused`
* `Emit.ends_bind`: binding a label ends as `Bound`, or changes nothing
-/

namespace Bytecode

namespace Emission

/-- The text of the member to which a request refers. -/
def member? : Emission → Option Text
  | getStatic owner name type => some (SymbolTable.member owner name type.descriptor)
  | putStatic owner name type => some (SymbolTable.member owner name type.descriptor)
  | invoke owner name signature => some (SymbolTable.member owner name signature.descriptor)
  | _ => none

/-- The type of the member to which a request refers. -/
def memberType? : Emission → Option MemberType
  | getStatic _ _ type => some (.field type)
  | putStatic _ _ type => some (.field type)
  | invoke _ _ signature => some (.routine signature)
  | _ => none

/-- The type at a depth of the stack, counted from the top. -/
def typeAt (types : List ValueType) (depth : Nat) : ValueType := types[depth]?.getD .void

theorem typeAt_eq {types : List ValueType} {depth : Nat} {t : ValueType}
    (h : types[depth]? = some t) : typeAt types depth = t := by
  rw [typeAt, h, Option.getD_some]

/-- The instruction that a request writes. Array operations take their type from the stack, a
return takes it from the routine, and a member is written as the index of its symbol. -/
def instruction (types : List ValueType) (result : ValueType) (symbol : UInt16) :
    Emission → Instruction Nat
  | pushNull => ⟨.pushNull, ()⟩
  | pushUndefined => ⟨.pushUndefined, ()⟩
  | pushBoolean value => if value then ⟨.pushTrue, ()⟩ else ⟨.pushFalse, ()⟩
  | pushInt value => ⟨.pushInt, value⟩
  | pushLong value => ⟨.pushLong, value⟩
  | pushNumber value => ⟨.pushNumber, value⟩
  | load type slot => ⟨.load, (type, slot)⟩
  | store type slot => ⟨.store, (type, slot)⟩
  | getStatic _ _ _ => ⟨.getStatic, symbol⟩
  | putStatic _ _ _ => ⟨.putStatic, symbol⟩
  | arrayLoad => ⟨.arrayLoad, typeAt types 1⟩
  | arrayStore => ⟨.arrayStore, typeAt types 2⟩
  | arrayLength => ⟨.arrayLength, ()⟩
  | newArray type => ⟨.newArray, type⟩
  | checkCast type => ⟨.checkCast, type⟩
  | dup => ⟨.dup, ()⟩
  | dup2 => ⟨.dup2, ()⟩
  | pop => ⟨.pop, ()⟩
  | pop2 => ⟨.pop2, ()⟩
  | swap => ⟨.swap, ()⟩
  | arithmetic op type => op.instruction type
  | neg type => ⟨.neg, type⟩
  | convert source target => ⟨.convert, (source, target)⟩
  | invoke _ _ _ => ⟨.invoke, symbol⟩
  | newScope size => ⟨.newScope, size⟩
  | jump label => ⟨.jump, label⟩
  | ifTrue label => ⟨.ifTrue, label⟩
  | ifFalse label => ⟨.ifFalse, label⟩
  | returnValue => ⟨.returnValue, result⟩
  | returnVoid => ⟨.returnVoid, ()⟩

end Emission

/-! ## Stacks and states -/

theorem modify_eq_self {α : Type} {items : Array α} {i : Nat} {x : α} {f : α → α}
    (hx : items[i]? = some x) (hf : f x = x) : items.modify i f = items := by
  refine Array.ext_getElem? fun k => ?_
  rw [Array.getElem?_modify]
  split
  · next hk => rw [← hk, hx, Option.map_some, hf]
  · rfl

theorem modify_modify {α : Type} (items : Array α) (i : Nat) (f g : α → α) :
    (items.modify i f).modify i g = items.modify i (g ∘ f) := by
  refine Array.ext_getElem? fun k => ?_
  simp only [Array.getElem?_modify]
  split
  · rw [Option.map_map]
  · rfl

theorem ValueType.width_eq_one {t : ValueType} (hvoid : t ≠ .void) (hwide : t.width ≠ 2) :
    t.width = 1 := by
  cases t <;> first | rfl | exact absurd rfl hvoid | exact absurd rfl hwide

theorem exists_cons_of_getElem?_zero {types : List ValueType} {t : ValueType}
    (h : types[0]? = some t) : ∃ rest, types = t :: rest := by
  cases types with
  | nil => cases h
  | cons x rest =>
    cases h
    exact ⟨rest, rfl⟩

theorem OperandStack.maxDepth_le_pushed (s : OperandStack) (t : ValueType) :
    s.maxDepth ≤ (s.pushed t).maxDepth := le_max_left _ _

theorem OperandStack.maxDepth_le_replaced (s : OperandStack) (types : List ValueType) :
    s.maxDepth ≤ (s.replaced types).maxDepth := le_max_left _ _

@[simp] theorem Assembler.stack_append (a : Assembler) (i : Instruction Nat) :
    (a.append i).stack = a.stack := rfl

/-- The assembly with another stack. -/
def Assembly.setStack (s : Assembly) (stack : OperandStack) : Assembly :=
  { s with assembler := { s.assembler with stack } }

@[simp] theorem Assembly.stack_setStack (s : Assembly) (stack : OperandStack) :
    (s.setStack stack).assembler.stack = stack := rfl

/-- A label at which the given types are on the stack. -/
def LabelState.seen (types : List ValueType) (l : LabelState) : LabelState :=
  { l with types := some types }

/-- A label to which an instruction jumps with the given types on the stack. -/
def LabelState.joined (types : List ValueType) (l : LabelState) : LabelState :=
  { l with types := some types, referenced := true }

/-- The labels after an instruction that leaves the given types on the stack. -/
def Assembler.labelsAfter (a : Assembler) (i : Instruction Nat) (types : List ValueType) :
    Array LabelState :=
  match i.target? with
  | none => a.labels
  | some label => a.labels.modify label (LabelState.joined types)

/-- The code with one more instruction, which leaves the given stack. -/
def Assembler.emitted (a : Assembler) (i : Instruction Nat) (stack : OperandStack) : Assembler :=
  { a.append i with
    stack
    labels := a.labelsAfter i stack.types
    reachable := !i.op.isTerminal }

/-- **A request that succeeded**: from `s` it left `t`, with `symbol` as the index of its member
and the given stack. -/
structure Emitted (e : Emission) (s t : Assembly) (symbol : UInt16) (stack : OperandStack) :
    Prop where
  isOpen : s.assembler.isOpen = true
  reachable : s.assembler.reachable = true
  interned : (e.member? = none ∧ t.symbols = s.symbols) ∨
    ∃ text, e.member? = some text ∧ s.symbols.intern text = .ok (symbol, t.symbols)
  effect : HasEffect s.assembler.locals s.assembler.returnType e.memberType?
    (e.instruction s.assembler.stack.types s.assembler.returnType symbol)
    s.assembler.stack.types stack.types
  /-- The label of a jump has not seen another shape. -/
  agrees : ∀ label,
    (e.instruction s.assembler.stack.types s.assembler.returnType symbol).target? = some label →
      ∃ l, s.assembler.labels[label]? = some l ∧ (l.types = none ∨ l.types = some stack.types)
  deeper : s.assembler.stack.maxDepth ≤ stack.maxDepth
  assembler_eq : t.assembler =
    s.assembler.emitted (e.instruction s.assembler.stack.types s.assembler.returnType symbol) stack

/-- **A request that failed**: it took values from the stack, or it was for a static field of type
void and has written its instruction. -/
inductive Refused (e : Emission) (s : Assembly) : Assembly → Prop
  | taken {stack : OperandStack} (hsuffix : stack.types <:+ s.assembler.stack.types)
      (hdepth : stack.maxDepth = s.assembler.stack.maxDepth) : Refused e s (s.setStack stack)
  | written {owner name : Text} {symbol : UInt16} {symbols : SymbolTable}
      (he : e = .getStatic owner name .void) (hopen : s.assembler.isOpen = true)
      (hreach : s.assembler.reachable = true)
      (hsymbol : s.symbols.intern (SymbolTable.member owner name ValueType.void.descriptor) =
        .ok (symbol, symbols)) :
      Refused e s ⟨s.assembler.append ⟨.getStatic, symbol⟩, symbols⟩

theorem Refused.unchanged (e : Emission) (s : Assembly) : Refused e s s :=
  .taken (List.suffix_refl _) rfl

/-! ## Rules for the parts of a request -/

namespace Emit

variable {α : Type} {s : Assembly} {fail : Error → Assembly → Prop}

theorem ends_fail {fault : TypingFault} {post : α → Assembly → Prop} (hfail : ∀ e, fail e s) :
    Ends (Emit.fail fault) s post fail := hfail _

theorem ends_refuse {fault : RoutineFault} {post : α → Assembly → Prop} (hfail : ∀ e, fail e s) :
    Ends (Emit.refuse fault) s post fail := hfail _

theorem ends_guard {op : Opcode} {post : Unit → Assembly → Prop} (hfail : ∀ e, fail e s)
    (h : s.assembler.isOpen = true → s.assembler.reachable = true → post () s) :
    Ends (Emit.guard op) s post fail := by
  refine Ends.bind (Ends.get ?_)
  split
  · next hopen =>
    refine Ends.bind (Ends.get ?_)
    split
    · next hreach => exact Ends.pure (h hopen hreach)
    · exact ends_fail hfail
  · exact Ends.bind (ends_refuse hfail)

theorem ends_push {t : ValueType} {post : Unit → Assembly → Prop} (ht : t ≠ .void)
    (h : post () (s.setStack (s.assembler.stack.pushed t))) : Ends (Emit.push t) s post fail := by
  have hpush : Emit.push t s = .ok () (s.setStack (s.assembler.stack.pushed t)) := by
    simp [Emit.push, Emit.onStack, OperandStack.push, ht, Assembly.setStack]
  exact Ends.of_ok hpush h

theorem ends_pop {t : ValueType} {post : Unit → Assembly → Prop} (hfail : ∀ e, fail e s)
    (h : ∀ x rest, s.assembler.stack.types = x :: rest → x.isAssignable t = true →
      post () (s.setStack s.assembler.stack.popped)) :
    Ends (Emit.pop t) s post fail := by
  refine Ends.map ?_
  unfold Ends Emit.onStack OperandStack.popAs
  cases htypes : s.assembler.stack.types with
  | nil => exact hfail _
  | cons x rest =>
    by_cases hx : x.isAssignable t = true
    · simp only [hx, if_true]
      exact h x rest htypes hx
    · simp only [hx, Bool.false_eq_true, if_false]
      exact hfail _

theorem ends_drop {post : ValueType → Assembly → Prop} (hfail : ∀ e, fail e s)
    (h : ∀ x rest, s.assembler.stack.types = x :: rest →
      post x (s.setStack s.assembler.stack.popped)) :
    Ends (Emit.onStack OperandStack.pop) s post fail := by
  unfold Ends Emit.onStack OperandStack.pop
  cases htypes : s.assembler.stack.types with
  | nil => exact hfail _
  | cons x rest => exact h x rest htypes

theorem ends_dropWidth {slots : Nat} {post : ValueType → Assembly → Prop} (hfail : ∀ e, fail e s)
    (h : ∀ x rest, s.assembler.stack.types = x :: rest → x.width = slots →
      post x (s.setStack s.assembler.stack.popped)) :
    Ends (Emit.onStack (OperandStack.popWidth slots)) s post fail := by
  unfold Ends Emit.onStack OperandStack.popWidth
  cases htypes : s.assembler.stack.types with
  | nil => exact hfail _
  | cons x rest =>
    by_cases hx : x.width = slots
    · simp only [hx, if_true]
      exact h x rest htypes hx
    · have hne : ¬ (x.width : Int) = slots := by exact_mod_cast hx
      simp only [hne, if_false]
      exact hfail _

theorem ends_peek {depth : Nat} {post : ValueType → Assembly → Prop} (hfail : ∀ e, fail e s)
    (h : ∀ x, s.assembler.stack.types[depth]? = some x → post x s) :
    Ends (Emit.onStack (OperandStack.peek depth)) s post fail := by
  unfold Ends Emit.onStack OperandStack.peek
  cases hx : s.assembler.stack.types[depth]? with
  | none => exact hfail _
  | some x => exact h x hx

theorem ends_restore {types : List ValueType} {post : Unit → Assembly → Prop}
    (h : post () (s.setStack (s.assembler.stack.replaced types))) :
    Ends (Emit.onStack (OperandStack.restore types.reverse)) s post fail := by
  refine Ends.of_ok ?_ h
  simp [Emit.onStack, OperandStack.restore, Assembly.setStack]

theorem ends_update {f : Assembler → Assembler} {post : Unit → Assembly → Prop}
    (h : post () { s with assembler := f s.assembler }) : Ends (Emit.update f) s post fail := h

theorem ends_intern {text : Text} {post : UInt16 → Assembly → Prop} (hfail : ∀ e, fail e s)
    (h : ∀ symbol symbols, s.symbols.intern text = .ok (symbol, symbols) →
      post symbol { s with symbols }) :
    Ends (Emit.intern text) s post fail := by
  unfold Ends Emit.intern
  cases hi : s.symbols.intern text with
  | error e => exact hfail e
  | ok found => exact h found.1 found.2 hi

theorem ends_write {i : Instruction Nat} {post : Unit → Assembly → Prop}
    (h : post () { s with assembler := s.assembler.append i }) :
    Ends (Emit.write i) s post fail := h

theorem ends_terminate {post : Unit → Assembly → Prop}
    (h : post () { s with assembler := { s.assembler with reachable := false } }) :
    Ends Emit.terminate s post fail := h

theorem ends_localType {slot : UInt16} {post : ValueType → Assembly → Prop}
    (hfail : ∀ e, fail e s)
    (h : ∀ t, s.assembler.locals.type? slot.toNat = some t → post t s) :
    Ends (Emit.localType slot) s post fail := by
  refine Ends.bind (Ends.get ?_)
  cases ht : s.assembler.locals.type? slot.toNat with
  | none => exact ends_fail hfail
  | some t => exact Ends.pure (h t ht)

theorem ends_labelState {label : Nat} {post : LabelState → Assembly → Prop}
    (hfail : ∀ e, fail e s) (h : ∀ l, s.assembler.labels[label]? = some l → post l s) :
    Ends (Emit.labelState label) s post fail := by
  refine Ends.bind (Ends.get ?_)
  cases hl : s.assembler.labels[label]? with
  | none => exact ends_refuse hfail
  | some l => exact Ends.pure (h l hl)

/-- Values are taken one after the other, the first of the expected types from the top. -/
theorem ends_popAll {expected : List ValueType} {post : Unit → Assembly → Prop}
    (hfail : ∀ e stack, stack.types <:+ s.assembler.stack.types →
      stack.maxDepth = s.assembler.stack.maxDepth → fail e (s.setStack stack))
    (h : ∀ args stack, s.assembler.stack.types = args ++ stack.types →
      List.Forall₂ (fun x t => x.isAssignable t = true) args expected →
      stack.maxDepth = s.assembler.stack.maxDepth → post () (s.setStack stack)) :
    Ends (expected.forM Emit.pop) s post fail := by
  induction expected generalizing s with
  | nil => exact h [] s.assembler.stack rfl .nil rfl
  | cons t expected ih =>
    refine Ends.bind (ends_pop (fun e => ?_) fun x rest hx hassign => ?_)
    · exact hfail e s.assembler.stack (List.suffix_refl _) rfl
    · refine ih (fun e stack hsuffix hdepth => ?_) fun args stack hargs hall hdepth => ?_
      · exact hfail e stack (hsuffix.trans (List.tail_suffix _)) hdepth
      · refine h (x :: args) stack ?_ (.cons hassign hall) hdepth
        simpa [hx] using hargs

/-- The assembly after the given label has seen the stack. -/
def met (s : Assembly) (label : Nat) : Assembly :=
  { s with assembler := { s.assembler with
    labels := s.assembler.labels.modify label (LabelState.seen s.assembler.stack.types) } }

/-- Control may come to a label only with the stack of the other ways to it. -/
theorem ends_merge {label : Nat} {l : LabelState} {post : Unit → Assembly → Prop}
    (hl : s.assembler.labels[label]? = some l) (hfail : ∀ e, fail e s)
    (h : l.types = none ∨ l.types = some s.assembler.stack.types → post () (met s label)) :
    Ends (Emit.merge label l) s post fail := by
  refine Ends.bind (Ends.get ?_)
  obtain ⟨offset, types, referenced⟩ := l
  cases types with
  | none => exact h (.inl rfl)
  | some other =>
    by_cases hsame : other = s.assembler.stack.types
    · subst hsame
      -- the shape is noted already, so noting it once more changes nothing
      have hmet : met s label = s := by
        have hlabels : s.assembler.labels.modify label
            (LabelState.seen s.assembler.stack.types) = s.assembler.labels :=
          modify_eq_self hl rfl
        unfold met
        rw [hlabels]
      have hs := h (.inr rfl)
      rw [hmet] at hs
      simpa using Ends.pure hs
    · simpa [hsame] using ends_fail hfail

/-- How an instruction is written depends on the offsets of the labels, and on nothing else of
them. -/
theorem append_of_labels {a : Assembler} {labels : Array LabelState} (i : Instruction Nat)
    (h : ∀ label : Nat, labels[label]?.bind LabelState.offset = a.offset? label) :
    ({ a with labels } : Assembler).append i = { a.append i with labels } := by
  have hoffset : ({ a with labels } : Assembler).offset? = a.offset? := funext h
  have hwritten : ({ a with labels } : Assembler).offsetOf = a.offsetOf := by
    funext label
    rw [Assembler.offsetOf, Assembler.offsetOf, hoffset]
  have hmissing : ({ a with labels } : Assembler).missing? i = a.missing? i := by
    rw [Assembler.missing?, Assembler.missing?, hoffset]
  have hnoted : ({ a with labels } : Assembler).noted i = a.noted i := by
    rw [Assembler.noted, Assembler.noted, hmissing]
    rfl
  simp only [Assembler.append, hwritten, hnoted]

theorem ends_branch {label : Nat} {i : Instruction Nat} {post : Unit → Assembly → Prop}
    (hfail : ∀ e, fail e s)
    (h : ∀ l, s.assembler.labels[label]? = some l →
      l.types = none ∨ l.types = some s.assembler.stack.types →
      post () { s with assembler := { s.assembler.append i with
        labels := s.assembler.labels.modify label
          (LabelState.joined s.assembler.stack.types) } }) :
    Ends (Emit.branch label i) s post fail := by
  refine Ends.bind (ends_labelState hfail fun l hl => ?_)
  refine Ends.bind (ends_merge hl hfail fun htypes => ?_)
  have hpost := h l hl htypes
  refine Ends.bind (Ends.modify (ends_write ?_))
  -- the shape and the mark are noted one after the other
  have hlabels : ((s.assembler.labels.modify label
      (LabelState.seen s.assembler.stack.types)).modify label fun l =>
        { l with referenced := true }) =
      s.assembler.labels.modify label (LabelState.joined s.assembler.stack.types) :=
    modify_modify _ _ _ _
  have hoffset : ∀ other : Nat, (s.assembler.labels.modify label
      (LabelState.joined s.assembler.stack.types))[other]?.bind LabelState.offset =
        s.assembler.offset? other := by
    intro other
    rw [Array.getElem?_modify, Assembler.offset?]
    split
    · rw [Option.bind_map]
      rfl
    · rfl
  simp only [met, hlabels]
  rw [append_of_labels i hoffset]
  exact hpost

end Emit

/-! ## The effect of each request -/

/-- A request that succeeded, with some symbol and some stack. -/
def Completed (e : Emission) (s t : Assembly) : Prop := ∃ symbol stack, Emitted e s t symbol stack

/-- A request that passes the guard ends as `Completed` or as `Refused`. -/
def Meets (e : Emission) (s : Assembly) : Prop :=
  Ends (Emit.apply e) s (fun _ t => Completed e s t) (fun _ t => Refused e s t)

section Requests

variable {s : Assembly} (hopen : s.assembler.isOpen = true) (hreach : s.assembler.reachable = true)

include hopen hreach

/-- An instruction from which control goes on to the next one only. -/
theorem completed_plain {e : Emission} {i : Instruction Nat} {stack : OperandStack}
    {before after : List ValueType} {symbols : SymbolTable} (symbol : UInt16)
    (hinterned : (e.member? = none ∧ symbols = s.symbols) ∨
      ∃ text, e.member? = some text ∧ s.symbols.intern text = .ok (symbol, symbols))
    (hi : e.instruction s.assembler.stack.types s.assembler.returnType symbol = i)
    (hplain : i.target? = none ∧ i.op.isTerminal = false)
    (hbefore : s.assembler.stack.types = before) (hafter : stack.types = after)
    (heffect : HasEffect s.assembler.locals s.assembler.returnType e.memberType? i before after)
    (hdepth : s.assembler.stack.maxDepth ≤ stack.maxDepth) :
    Completed e s ⟨{ s.assembler.append i with stack }, symbols⟩ := by
  refine ⟨symbol, stack, hopen, hreach, hinterned, ?_, ?_, hdepth, ?_⟩
  · rw [hi, hbefore, hafter]
    exact heffect
  · intro label hlabel
    rw [hi, hplain.1] at hlabel
    cases hlabel
  · rw [hi]
    simp [Assembler.emitted, Assembler.labelsAfter, Assembler.append, hplain, hreach]

theorem meets_pushConstant {e : Emission} {i : Instruction Nat} {t : ValueType} (ht : t ≠ .void)
    (hmember : e.member? = none)
    (hi : e.instruction s.assembler.stack.types s.assembler.returnType 0 = i)
    (hplain : i.target? = none ∧ i.op.isTerminal = false)
    (heffect : HasEffect s.assembler.locals s.assembler.returnType e.memberType? i
      s.assembler.stack.types (t :: s.assembler.stack.types)) :
    Ends (do Emit.write i; Emit.push t) s (fun _ t => Completed e s t)
      (fun _ t => Refused e s t) := by
  refine Ends.bind (Emit.ends_write (Emit.ends_push ht ?_))
  exact completed_plain hopen hreach 0 (.inl ⟨hmember, rfl⟩) hi hplain rfl rfl heffect
    (OperandStack.maxDepth_le_pushed _ _)

theorem meets_load (type : ValueType) (slot : UInt16) :
    Meets (.load type slot) s := by
  refine Ends.bind (Emit.ends_localType (fun _ => .unchanged _ _) fun declared hlocal => ?_)
  split
  · next ht =>
    have hvoid : type ≠ .void := ValueType.ne_void_of_isAssignable ht (Locals.type?_ne_void hlocal)
    exact meets_pushConstant hopen hreach hvoid rfl rfl ⟨rfl, rfl⟩ (.load hlocal ht)
  · exact Ends.bind (Emit.ends_fail fun _ => .unchanged _ _)

theorem meets_store (type : ValueType) (slot : UInt16) :
    Meets (.store type slot) s := by
  refine Ends.bind (Emit.ends_localType (fun _ => .unchanged _ _) fun declared hlocal => ?_)
  split
  · next ht =>
    refine Ends.bind (Emit.ends_pop (fun _ => .unchanged _ _) fun x rest hx hassign => ?_)
    refine Emit.ends_write ?_
    exact completed_plain hopen hreach 0 (.inl ⟨rfl, rfl⟩) rfl ⟨rfl, rfl⟩ hx (by simp [hx])
      (.store hlocal ht hassign) le_rfl
  · exact Ends.bind (Emit.ends_fail fun _ => .unchanged _ _)

theorem meets_getStatic (owner name : Text) (type : ValueType) :
    Meets (.getStatic owner name type) s := by
  refine Ends.bind (Emit.ends_intern (fun _ => .unchanged _ _) fun symbol symbols hsymbol => ?_)
  refine Ends.bind (Emit.ends_write ?_)
  -- whether the type can stand on the stack is looked at only when the field is pushed
  by_cases hvoid : type = .void
  · subst hvoid
    exact .written rfl hopen hreach hsymbol
  · refine Emit.ends_push hvoid ?_
    exact completed_plain hopen hreach symbol (.inr ⟨_, rfl, hsymbol⟩) rfl ⟨rfl, rfl⟩ rfl rfl
      (.getStatic hvoid) (OperandStack.maxDepth_le_pushed _ _)

theorem meets_putStatic (owner name : Text) (type : ValueType) :
    Meets (.putStatic owner name type) s := by
  refine Ends.bind (Emit.ends_pop (fun _ => .unchanged _ _) fun x rest hx hassign => ?_)
  refine Ends.bind (Emit.ends_intern (fun _ => ?_) fun symbol symbols hsymbol => ?_)
  · exact .taken (List.tail_suffix _) rfl
  · refine Emit.ends_write ?_
    exact completed_plain hopen hreach symbol (.inr ⟨_, rfl, hsymbol⟩) rfl ⟨rfl, rfl⟩ hx
      (by simp [hx]) (.putStatic hassign) le_rfl

theorem meets_arrayLoad : Meets .arrayLoad s := by
  refine Ends.bind (Emit.ends_peek (fun _ => .unchanged _ _) fun array harray => ?_)
  cases hc : array.component? with
  | none => exact Emit.ends_fail fun _ => .unchanged _ _
  | some component =>
    refine Ends.bind (Emit.ends_pop (fun _ => .unchanged _ _) fun i rest hi hint => ?_)
    refine Ends.bind (Emit.ends_pop (fun _ => ?_) fun a rest' ha hassign => ?_)
    · exact .taken (List.tail_suffix _) rfl
    · have hrest : rest = a :: rest' := by simpa [hi] using ha
      subst hrest
      refine Ends.bind (Emit.ends_write (Emit.ends_push (ValueType.ne_void_of_component? hc) ?_))
      exact completed_plain hopen hreach 0 (.inl ⟨rfl, rfl⟩)
        (by rw [Emission.instruction, Emission.typeAt_eq harray]) ⟨rfl, rfl⟩ hi
        (by simp [hi]) (.arrayLoad hc hint hassign)
        (OperandStack.maxDepth_le_pushed s.assembler.stack.popped.popped _)

theorem meets_arrayStore : Meets .arrayStore s := by
  refine Ends.bind (Emit.ends_peek (fun _ => .unchanged _ _) fun array harray => ?_)
  cases hc : array.component? with
  | none => exact Emit.ends_fail fun _ => .unchanged _ _
  | some component =>
    refine Ends.bind (Emit.ends_pop (fun _ => .unchanged _ _) fun x rest hx hvalue => ?_)
    refine Ends.bind (Emit.ends_pop (fun _ => ?_) fun i rest' hi hint => ?_)
    · exact .taken (List.tail_suffix _) rfl
    refine Ends.bind (Emit.ends_pop (fun _ => ?_) fun a rest'' ha hassign => ?_)
    · exact .taken ((List.tail_suffix _).trans (List.tail_suffix _)) rfl
    · have hrest : rest = i :: rest' := by simpa [hx] using hi
      subst hrest
      have hrest' : rest' = a :: rest'' := by simpa [hx] using ha
      subst hrest'
      refine Emit.ends_write ?_
      exact completed_plain hopen hreach 0 (.inl ⟨rfl, rfl⟩)
        (by rw [Emission.instruction, Emission.typeAt_eq harray]) ⟨rfl, rfl⟩ hx
        (by simp [hx]) (.arrayStore hc hvalue hint hassign) le_rfl

theorem meets_arrayLength : Meets .arrayLength s := by
  refine Ends.bind (Emit.ends_peek (fun _ => .unchanged _ _) fun array harray => ?_)
  split
  · next hisArray =>
    refine Ends.bind (Ends.map (Emit.ends_drop (fun _ => .unchanged _ _) fun x rest hx => ?_))
    have hsame : x = array := by simpa [hx] using harray
    subst hsame
    refine Ends.bind (Emit.ends_write (Emit.ends_push (by decide) ?_))
    exact completed_plain hopen hreach 0 (.inl ⟨rfl, rfl⟩) rfl ⟨rfl, rfl⟩ hx (by simp [hx])
      (.arrayLength hisArray) (OperandStack.maxDepth_le_pushed s.assembler.stack.popped _)
  · exact Ends.bind (Emit.ends_fail fun _ => .unchanged _ _)

/-- Takes one value and leaves another. -/
theorem meets_replace {e : Emission} {i : Instruction Nat} {t u : ValueType} (hu : u ≠ .void)
    (hmember : e.member? = none)
    (hi : e.instruction s.assembler.stack.types s.assembler.returnType 0 = i)
    (hplain : i.target? = none ∧ i.op.isTerminal = false)
    (heffect : ∀ x rest, x.isAssignable t = true →
      HasEffect s.assembler.locals s.assembler.returnType e.memberType? i (x :: rest) (u :: rest)) :
    Ends (do Emit.pop t; Emit.write i; Emit.push u) s (fun _ t => Completed e s t)
      (fun _ t => Refused e s t) := by
  refine Ends.bind (Emit.ends_pop (fun _ => .unchanged _ _) fun x rest hx hassign => ?_)
  refine Ends.bind (Emit.ends_write (Emit.ends_push hu ?_))
  exact completed_plain hopen hreach 0 (.inl ⟨hmember, rfl⟩) hi hplain hx (by simp [hx])
    (heffect x rest hassign) (OperandStack.maxDepth_le_pushed s.assembler.stack.popped _)

theorem meets_newArray (type : ValueType) : Meets (.newArray type) s := by
  simp only [Meets, Emit.apply]
  split
  · next ht =>
    have hvoid : type ≠ .void := ValueType.ne_void_of_isArray ht
    exact meets_replace hopen hreach hvoid rfl rfl ⟨rfl, rfl⟩ fun _ _ hx => .newArray ht hx
  · exact Ends.bind (Emit.ends_fail fun _ => .unchanged _ _)

theorem meets_checkCast (type : ValueType) : Meets (.checkCast type) s := by
  simp only [Meets, Emit.apply]
  split
  · next ht =>
    have hvoid : type ≠ .void := ValueType.ne_void_of_isReference ht
    exact meets_replace hopen hreach hvoid rfl rfl ⟨rfl, rfl⟩ fun _ _ hx => .checkCast ht hx
  · exact Ends.bind (Emit.ends_fail fun _ => .unchanged _ _)

theorem meets_neg (type : ValueType) : Meets (.neg type) s := by
  simp only [Meets, Emit.apply]
  split
  · next ht =>
    have hvoid : type ≠ .void := ValueType.ne_void_of_isNumeric ht
    exact meets_replace hopen hreach hvoid rfl rfl ⟨rfl, rfl⟩ fun _ _ hx => .neg ht hx
  · exact Ends.bind (Emit.ends_fail fun _ => .unchanged _ _)

theorem meets_convert (source target : ValueType) : Meets (.convert source target) s := by
  simp only [Meets, Emit.apply]
  split
  · exact Ends.bind (Emit.ends_fail fun _ => .unchanged _ _)
  · next hbad =>
    have hok : (source.isNumeric = true ∧ target.isNumeric = true) ∧ source ≠ target := by
      simpa using hbad
    have hvoid : target ≠ .void := ValueType.ne_void_of_isNumeric hok.1.2
    exact meets_replace hopen hreach hvoid rfl rfl ⟨rfl, rfl⟩ fun _ _ hx =>
      .convert hok.1.1 hok.1.2 hok.2 hx

theorem meets_newScope (size : UInt16) : Meets (.newScope size) s :=
  meets_replace hopen hreach (by decide) rfl rfl ⟨rfl, rfl⟩ fun _ _ hx => .newScope hx

theorem meets_dup : Meets .dup s := by
  refine Ends.bind (Emit.ends_peek (fun _ => .unchanged _ _) fun top htop => ?_)
  obtain ⟨rest, htypes⟩ := exists_cons_of_getElem?_zero htop
  split
  · next hwidth =>
    have hone : top.width = 1 := by simpa using hwidth
    have hvoid : top ≠ .void := by rintro rfl; cases hone
    refine Ends.bind (Emit.ends_write (Emit.ends_push hvoid ?_))
    exact completed_plain hopen hreach 0 (.inl ⟨rfl, rfl⟩) rfl ⟨rfl, rfl⟩ htypes (by simp [htypes])
      (.dup hone) (OperandStack.maxDepth_le_pushed _ _)
  · exact Ends.bind (Emit.ends_fail fun _ => .unchanged _ _)

theorem meets_dup2 (hclean : .void ∉ s.assembler.stack.types) : Meets .dup2 s := by
  refine Ends.bind (Emit.ends_peek (fun _ => .unchanged _ _) fun top htop => ?_)
  obtain ⟨rest, htypes⟩ := exists_cons_of_getElem?_zero htop
  -- what is not two slots wide is taken to be one slot wide, which void is not
  have hvoid : top ≠ .void := by
    rintro rfl
    exact hclean (htypes ▸ List.mem_cons_self)
  split
  · next hwidth =>
    refine Ends.bind (Emit.ends_write (Emit.ends_push hvoid ?_))
    exact completed_plain hopen hreach 0 (.inl ⟨rfl, rfl⟩) rfl ⟨rfl, rfl⟩ htypes (by simp [htypes])
      (.dup2Wide (by simpa using hwidth)) (OperandStack.maxDepth_le_pushed _ _)
  · next hwidth =>
    have hone : top.width = 1 := ValueType.width_eq_one hvoid (by simpa using hwidth)
    refine Ends.bind (Emit.ends_peek (fun _ => .unchanged _ _) fun below hbelow => ?_)
    obtain ⟨rest', hrest⟩ : ∃ rest', rest = below :: rest' := by
      rw [htypes, List.getElem?_cons_succ] at hbelow
      exact exists_cons_of_getElem?_zero hbelow
    subst hrest
    split
    · next hnarrow =>
      have hone' : below.width = 1 := by simpa using hnarrow
      have hvoid' : below ≠ .void := by rintro rfl; cases hone'
      refine Ends.bind (Emit.ends_write (Ends.bind (Emit.ends_push hvoid' ?_)))
      refine Emit.ends_push hvoid ?_
      exact completed_plain hopen hreach 0 (.inl ⟨rfl, rfl⟩) rfl ⟨rfl, rfl⟩ htypes
        (by simp [htypes]) (.dup2Pair hone hone')
        ((OperandStack.maxDepth_le_pushed _ _).trans (OperandStack.maxDepth_le_pushed _ _))
    · exact Ends.bind (Emit.ends_fail fun _ => .unchanged _ _)

theorem meets_pop : Meets .pop s := by
  refine Ends.bind (Ends.map (Emit.ends_dropWidth (fun _ => .unchanged _ _)
    fun x rest hx hone => ?_))
  refine Emit.ends_write ?_
  exact completed_plain hopen hreach 0 (.inl ⟨rfl, rfl⟩) rfl ⟨rfl, rfl⟩ hx (by simp [hx])
    (.pop hone) le_rfl

theorem meets_pop2 : Meets .pop2 s := by
  refine Ends.bind (Emit.ends_peek (fun _ => .unchanged _ _) fun top htop => ?_)
  split
  · next hwidth =>
    refine Ends.bind (Ends.map (Emit.ends_drop (fun _ => .unchanged _ _) fun x rest hx => ?_))
    have hsame : x = top := by simpa [hx] using htop
    subst hsame
    refine Emit.ends_write ?_
    exact completed_plain hopen hreach 0 (.inl ⟨rfl, rfl⟩) rfl ⟨rfl, rfl⟩ hx (by simp [hx])
      (.pop2Wide (by simpa using hwidth)) le_rfl
  · refine Ends.bind (Ends.map (Emit.ends_dropWidth (fun _ => .unchanged _ _)
      fun x rest hx hone => ?_))
    refine Ends.bind (Ends.map (Emit.ends_dropWidth (fun _ => ?_) fun y rest' hy hone' => ?_))
    · exact .taken (List.tail_suffix _) rfl
    · have hrest : rest = y :: rest' := by simpa [hx] using hy
      subst hrest
      refine Emit.ends_write ?_
      exact completed_plain hopen hreach 0 (.inl ⟨rfl, rfl⟩) rfl ⟨rfl, rfl⟩ hx (by simp [hx])
        (.pop2Pair hone hone') le_rfl

theorem meets_swap : Meets .swap s := by
  refine Ends.bind (Emit.ends_dropWidth (fun _ => .unchanged _ _) fun x rest hx hone => ?_)
  refine Ends.bind (Emit.ends_dropWidth (fun _ => ?_) fun y rest' hy hone' => ?_)
  · exact .taken (List.tail_suffix _) rfl
  · have hrest : rest = y :: rest' := by simpa [hx] using hy
    subst hrest
    have hvoid : x ≠ .void := by rintro rfl; cases hone
    have hvoid' : y ≠ .void := by rintro rfl; cases hone'
    refine Ends.bind (Emit.ends_write (Ends.bind (Emit.ends_push hvoid ?_)))
    refine Emit.ends_push hvoid' ?_
    exact completed_plain hopen hreach 0 (.inl ⟨rfl, rfl⟩) rfl ⟨rfl, rfl⟩ hx (by simp [hx])
      (.swap hone hone') ((OperandStack.maxDepth_le_pushed s.assembler.stack.popped.popped _).trans
        (OperandStack.maxDepth_le_pushed _ _))

theorem meets_arithmetic (op : Arithmetic) (type : ValueType) : Meets (.arithmetic op type) s := by
  simp only [Meets, Emit.apply]
  split
  · next ht =>
    have hvoid : type ≠ .void := ValueType.ne_void_of_isNumeric ht
    refine Ends.bind (Emit.ends_pop (fun _ => .unchanged _ _) fun x rest hx hassign => ?_)
    refine Ends.bind (Emit.ends_pop (fun _ => ?_) fun y rest' hy hassign' => ?_)
    · exact .taken (List.tail_suffix _) rfl
    · have hrest : rest = y :: rest' := by simpa [hx] using hy
      subst hrest
      refine Ends.bind (Emit.ends_write (Emit.ends_push hvoid ?_))
      -- the four operations have the same effect, by a rule each
      have heffect : HasEffect s.assembler.locals s.assembler.returnType none
          (op.instruction type : Instruction Nat) (x :: y :: rest') (type :: rest') := by
        cases op with
        | add => exact .add ht hassign hassign'
        | sub => exact .sub ht hassign hassign'
        | mul => exact .mul ht hassign hassign'
        | div => exact .div ht hassign hassign'
      exact completed_plain hopen hreach 0 (.inl ⟨rfl, rfl⟩) rfl (by cases op <;> exact ⟨rfl, rfl⟩)
        hx (by simp [hx]) heffect
        (OperandStack.maxDepth_le_pushed s.assembler.stack.popped.popped _)
  · exact Ends.bind (Emit.ends_fail fun _ => .unchanged _ _)

theorem meets_invoke (owner name : Text) (signature : Signature) :
    Meets (.invoke owner name signature) s := by
  refine Ends.bind (Emit.ends_popAll (fun _ _ hsuffix hdepth => .taken hsuffix hdepth)
    fun args stack hargs hall hdepth => ?_)
  refine Ends.bind (Emit.ends_intern (fun _ => ?_) fun symbol symbols hsymbol => ?_)
  · exact .taken ⟨args, hargs.symm⟩ hdepth
  have heffect : HasEffect s.assembler.locals s.assembler.returnType (some (.routine signature))
      (⟨.invoke, symbol⟩ : Instruction Nat) (args ++ stack.types)
      (signature.returned ++ stack.types) := .invoke hall
  refine Ends.bind (Emit.ends_write ?_)
  split
  · next hresult =>
    have hreturned : signature.returned = [] := by simpa [Signature.returned] using hresult
    exact completed_plain hopen hreach symbol (.inr ⟨_, rfl, hsymbol⟩) rfl ⟨rfl, rfl⟩ hargs
      (by simp [hreturned]) heffect hdepth.ge
  · next hresult =>
    have hvoid : signature.result ≠ .void := by simpa using hresult
    have hreturned : signature.returned = [signature.result] := if_neg hvoid
    refine Emit.ends_push hvoid ?_
    exact completed_plain hopen hreach symbol (.inr ⟨_, rfl, hsymbol⟩) rfl ⟨rfl, rfl⟩ hargs
      (by simp [hreturned]) heffect (hdepth.ge.trans (OperandStack.maxDepth_le_pushed _ _))

/-- An instruction that jumps to a label, and from which control may also go on. -/
theorem completed_branch {e : Emission} {i : Instruction Nat} {stack : OperandStack}
    {before after : List ValueType} {label : Nat} {l : LabelState} {reachable : Bool}
    (hmember : e.member? = none)
    (hi : e.instruction s.assembler.stack.types s.assembler.returnType 0 = i)
    (htarget : i.target? = some label) (hnext : reachable = !i.op.isTerminal)
    (hbefore : s.assembler.stack.types = before) (hafter : stack.types = after)
    (heffect : HasEffect s.assembler.locals s.assembler.returnType e.memberType? i before after)
    (hl : s.assembler.labels[label]? = some l)
    (htypes : l.types = none ∨ l.types = some stack.types)
    (hdepth : s.assembler.stack.maxDepth ≤ stack.maxDepth) :
    Completed e s ⟨{ s.assembler.append i with
      stack
      labels := s.assembler.labels.modify label (LabelState.joined stack.types)
      reachable }, s.symbols⟩ := by
  refine ⟨0, stack, hopen, hreach, .inl ⟨hmember, rfl⟩, ?_, ?_, hdepth, ?_⟩
  · rw [hi, hbefore, hafter]
    exact heffect
  · intro label' hlabel
    rw [hi, htarget] at hlabel
    cases hlabel
    exact ⟨l, hl, htypes⟩
  · rw [hi]
    simp [Assembler.emitted, Assembler.labelsAfter, htarget, hnext]

theorem meets_jump (label : Nat) : Meets (.jump label) s := by
  refine Ends.bind (Emit.ends_branch (fun _ => .unchanged _ _) fun l hl htypes => ?_)
  refine Emit.ends_terminate ?_
  exact completed_branch hopen hreach rfl rfl rfl rfl rfl rfl .jump hl htypes le_rfl

theorem meets_ifTrue (label : Nat) : Meets (.ifTrue label) s := by
  refine Ends.bind (Emit.ends_pop (fun _ => .unchanged _ _) fun x rest hx hassign => ?_)
  refine Emit.ends_branch (fun _ => .taken (List.tail_suffix _) rfl) fun l hl htypes => ?_
  exact completed_branch hopen hreach rfl rfl rfl hreach hx (by simp [hx]) (.ifTrue hassign) hl
    htypes le_rfl

theorem meets_ifFalse (label : Nat) : Meets (.ifFalse label) s := by
  refine Ends.bind (Emit.ends_pop (fun _ => .unchanged _ _) fun x rest hx hassign => ?_)
  refine Emit.ends_branch (fun _ => .taken (List.tail_suffix _) rfl) fun l hl htypes => ?_
  exact completed_branch hopen hreach rfl rfl rfl hreach hx (by simp [hx]) (.ifFalse hassign) hl
    htypes le_rfl

/-- An instruction after which the code has no next one. -/
theorem completed_return {e : Emission} {i : Instruction Nat} {stack : OperandStack}
    {before after : List ValueType} (hmember : e.member? = none)
    (hi : e.instruction s.assembler.stack.types s.assembler.returnType 0 = i)
    (hlast : i.target? = none ∧ i.op.isTerminal = true)
    (hbefore : s.assembler.stack.types = before) (hafter : stack.types = after)
    (heffect : HasEffect s.assembler.locals s.assembler.returnType e.memberType? i before after)
    (hdepth : s.assembler.stack.maxDepth ≤ stack.maxDepth) :
    Completed e s ⟨{ s.assembler.append i with stack, reachable := false }, s.symbols⟩ := by
  refine ⟨0, stack, hopen, hreach, .inl ⟨hmember, rfl⟩, ?_, ?_, hdepth, ?_⟩
  · rw [hi, hbefore, hafter]
    exact heffect
  · intro label hlabel
    rw [hi, hlast.1] at hlabel
    cases hlabel
  · rw [hi]
    simp [Assembler.emitted, Assembler.labelsAfter, Assembler.append, hlast]

theorem meets_returnVoid : Meets .returnVoid s := by
  refine Ends.bind (Ends.get ?_)
  dsimp only
  split
  · next hvoid =>
    refine Ends.bind (Emit.ends_write (Emit.ends_terminate ?_))
    exact completed_return hopen hreach rfl rfl ⟨rfl, rfl⟩ rfl rfl
      (.returnVoid (by simpa using hvoid)) le_rfl
  · exact Ends.bind (Emit.ends_fail fun _ => .unchanged _ _)

theorem meets_returnValue : Meets .returnValue s := by
  refine Ends.bind (Ends.get ?_)
  dsimp only
  split
  · exact Ends.bind (Emit.ends_fail fun _ => .unchanged _ _)
  · next hvoid =>
    refine Ends.bind (Emit.ends_pop (fun _ => .unchanged _ _) fun x rest hx hassign => ?_)
    refine Ends.bind (Emit.ends_write (Emit.ends_terminate ?_))
    exact completed_return hopen hreach rfl rfl ⟨rfl, rfl⟩ hx (by simp [hx])
      (.returnValue (by simpa using hvoid) hassign) le_rfl

/-- What a request does when the routine is open and its end can be reached. -/
theorem meets (e : Emission) (hclean : .void ∉ s.assembler.stack.types) : Meets e s := by
  cases e with
  | pushNull =>
    exact meets_pushConstant hopen hreach (by decide) rfl rfl ⟨rfl, rfl⟩ .pushNull
  | pushUndefined =>
    exact meets_pushConstant hopen hreach (by decide) rfl rfl ⟨rfl, rfl⟩ .pushUndefined
  | pushBoolean value =>
    cases value with
    | true => exact meets_pushConstant hopen hreach (by decide) rfl rfl ⟨rfl, rfl⟩ .pushTrue
    | false => exact meets_pushConstant hopen hreach (by decide) rfl rfl ⟨rfl, rfl⟩ .pushFalse
  | pushInt value => exact meets_pushConstant hopen hreach (by decide) rfl rfl ⟨rfl, rfl⟩ .pushInt
  | pushLong value => exact meets_pushConstant hopen hreach (by decide) rfl rfl ⟨rfl, rfl⟩ .pushLong
  | pushNumber value =>
    exact meets_pushConstant hopen hreach (by decide) rfl rfl ⟨rfl, rfl⟩ .pushNumber
  | load type slot => exact meets_load hopen hreach type slot
  | store type slot => exact meets_store hopen hreach type slot
  | getStatic owner name type => exact meets_getStatic hopen hreach owner name type
  | putStatic owner name type => exact meets_putStatic hopen hreach owner name type
  | arrayLoad => exact meets_arrayLoad hopen hreach
  | arrayStore => exact meets_arrayStore hopen hreach
  | arrayLength => exact meets_arrayLength hopen hreach
  | newArray type => exact meets_newArray hopen hreach type
  | checkCast type => exact meets_checkCast hopen hreach type
  | dup => exact meets_dup hopen hreach
  | dup2 => exact meets_dup2 hopen hreach hclean
  | pop => exact meets_pop hopen hreach
  | pop2 => exact meets_pop2 hopen hreach
  | swap => exact meets_swap hopen hreach
  | arithmetic op type => exact meets_arithmetic hopen hreach op type
  | neg type => exact meets_neg hopen hreach type
  | convert source target => exact meets_convert hopen hreach source target
  | invoke owner name signature => exact meets_invoke hopen hreach owner name signature
  | newScope size => exact meets_newScope hopen hreach size
  | jump label => exact meets_jump hopen hreach label
  | ifTrue label => exact meets_ifTrue hopen hreach label
  | ifFalse label => exact meets_ifFalse hopen hreach label
  | returnValue => exact meets_returnValue hopen hreach
  | returnVoid => exact meets_returnVoid hopen hreach

end Requests

/-- **The effect of a request**: it writes one well-typed instruction, or it is refused. -/
theorem Emit.ends_emission {e : Emission} {s : Assembly}
    (hclean : .void ∉ s.assembler.stack.types) :
    Ends (Emit.emission e) s (fun _ t => Completed e s t) (fun _ t => Refused e s t) :=
  Ends.bind (Emit.ends_guard (fun _ => .unchanged e s) fun hopen hreach =>
    meets hopen hreach e hclean)

/-! ## Labels and locals -/

/-- A local takes the next free slots, of which there are no more than `65535`. -/
theorem Emit.ends_defineLocal {type : ValueType} {s : Assembly} {post : UInt16 → Assembly → Prop}
    {fail : Error → Assembly → Prop} (hfail : ∀ e, fail e s)
    (h : type ≠ .void → s.assembler.locals.slots + type.width ≤ 65535 →
      post s.assembler.locals.slots.toUInt16 { s with assembler := { s.assembler with
        locals := s.assembler.locals.define type } }) :
    Ends (Emit.defineLocal type) s post fail := by
  unfold Ends Emit.defineLocal Assembler.defineLocal
  by_cases hvoid : type = .void
  · simp only [hvoid, beq_self_eq_true, if_true]
    exact hfail _
  · by_cases hslots : 65535 < s.assembler.locals.slots + type.width
    · simp only [beq_iff_eq, hvoid, if_false, hslots, if_true]
      exact hfail _
    · simp only [beq_iff_eq, hvoid, if_false, hslots]
      exact h hvoid (Nat.le_of_not_lt hslots)

theorem Emit.ends_newLabel {s : Assembly} {post : Nat → Assembly → Prop}
    {fail : Error → Assembly → Prop}
    (h : post s.assembler.labels.size { s with assembler := { s.assembler with
      labels := s.assembler.labels.push {} } }) : Ends Emit.newLabel s post fail := h

/-- A label bound to an offset at which the given types are on the stack. -/
def LabelState.boundAt (types : List ValueType) (offset : Nat) (l : LabelState) : LabelState :=
  { l with types := some types, offset := some offset }

/-- **A label that was bound**: it sees the stack at the end of the code when control comes there
from above, and the end of the code takes the stack that the label has seen otherwise. -/
structure Bound (label : Nat) (s t : Assembly) (l : LabelState) (stack : OperandStack) : Prop where
  label_eq : s.assembler.labels[label]? = some l
  unbound : l.offset = none
  agrees : l.types = none ∨ l.types = some stack.types
  reached : s.assembler.reachable = true → stack = s.assembler.stack
  fresh : s.assembler.reachable = false → stack = s.assembler.stack.replaced (l.types.getD [])
  eq : t = { s with assembler := { s.assembler with
    stack
    labels := s.assembler.labels.modify label (LabelState.boundAt stack.types s.assembler.size)
    reachable := true } }

/-- A failure to bind a label changes nothing. -/
theorem Emit.ends_bind {label : Nat} {s : Assembly} :
    Ends (Emit.bind label) s (fun _ t => ∃ l stack, Bound label s t l stack)
      (fun _ t => t = s) := by
  refine Ends.bind (ends_labelState (fun _ => rfl) fun l hl => ?_)
  split
  · exact Ends.bind (ends_refuse fun _ => rfl)
  · next hoffset =>
    have hunbound : l.offset = none := by simpa using hoffset
    refine Ends.bind (Ends.get ?_)
    split
    · next hreach =>
      refine Ends.bind (ends_merge hl (fun _ => rfl) fun htypes => ?_)
      refine Ends.bind (Ends.get (ends_update ?_))
      refine ⟨l, s.assembler.stack, hl, hunbound, htypes, fun _ => rfl, ?_, ?_⟩
      · intro hdead
        rw [hreach] at hdead
        cases hdead
      · simp only [met, modify_modify, hreach]
        rfl
    · next hdead =>
      -- the end of the code cannot be reached, so the stack is the one that jumps have left
      refine Ends.bind (ends_restore (Ends.bind (ends_update (Ends.bind (ends_update ?_)))))
      refine Ends.bind (Ends.get (ends_update ?_))
      refine ⟨l, s.assembler.stack.replaced (l.types.getD []), hl, hunbound, ?_, ?_,
        fun _ => rfl, ?_⟩
      · cases htypes : l.types with
        | none => exact .inl rfl
        | some types => exact .inr rfl
      · intro hreach
        exact absurd hreach hdead
      · simp only [modify_modify]
        rfl

end Bytecode
