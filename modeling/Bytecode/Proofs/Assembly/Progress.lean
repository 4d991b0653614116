import Mathlib
import Bytecode.Proofs.Assembly.Faults
import Bytecode.Routine

/-!
# Requests that fit are granted

Code that is known beforehand fits by the typing rules alone, so that only limits of the unit format
are left as reasons for its requests to fail. This is how the instructions that no client asks for,
at the start of functions and in accessors, are known not to fail for any other reason.

## Main definitions

* `Limited`: a step that fails at most because of a limit
* `Assembler.Stands`: straight code, with what is known at its end
* `Layout.prologue`: the first instructions of a routine with given slots

## Main results

* `HasEffect.unique`: an instruction leaves one shape
* `Emit.limited_emission`: a request that fits is granted, within the limits of the format
* `Emit.ends_prologue`: the prologue of a function is written, and its locals take the next slots
* `Emit.limited_prologue`: it is written within the limits of the format
-/

namespace Bytecode

section Limited

variable {σ α β : Type} {m : EStateM Error σ α} {f : α → EStateM Error σ β} {s t : σ} {x : α}
  {post : α → σ → Prop} {fail : Error → σ → Prop}

/-- The step fails at most because of a limit of the unit format. -/
def Limited (m : EStateM Error σ α) (s : σ) : Prop :=
  Ends m s (fun _ _ => True) fun e _ => e.IsLimit

theorem Limited.of_ok (h : m s = .ok x t) : Limited m s := Ends.of_ok h trivial

theorem Limited.pure (x : α) : Limited (Pure.pure x : EStateM Error σ α) s := trivial

/-- What a step does, when it fails at most because of a limit. -/
theorem Ends.limited (h : Ends m s post fail) (hm : Limited m s) :
    Ends m s post fun e _ => e.IsLimit :=
  (h.and hm).mono (fun _ _ hx => hx.1) fun _ _ he => he.2

theorem Limited.bind (hm : Limited m s) (hf : ∀ x t, m s = .ok x t → Limited (f x) t) :
    Limited (m >>= f) s :=
  Ends.bind (((Ends.self m s).and hm).mono (fun x t hx => hf x t hx.1) fun _ _ he => he.2)

theorem Limited.bind_ok (hm : m s = .ok x t) (hf : Limited (f x) t) : Limited (m >>= f) s :=
  Ends.bind (Ends.of_ok hm hf)

end Limited

/-- An instruction leaves one shape. -/
theorem HasEffect.unique {locals : Locals} {result : ValueType} {α : Type}
    {member : Option MemberType} {i : Instruction α} {s t t' : List ValueType}
    (h : HasEffect locals result member i s t) (h' : HasEffect locals result member i s t') :
    t = t' := by
  cases h with
  | @invoke rest args signature symbol hargs =>
    generalize htypes : args ++ rest = types at h'
    cases h' with
    | @invoke rest' args' _ _ hargs' =>
      have hlength : args.length = args'.length := by
        rw [hargs.length_eq, hargs'.length_eq]
      obtain ⟨-, rfl⟩ := List.append_inj htypes hlength
      rfl
  | _ => cases h' <;> simp_all

namespace Emit

variable {α β : Type} {s : Assembly} {x t : ValueType} {rest : List ValueType}

theorem guard_eq (op : Opcode) (hopen : s.assembler.isOpen = true)
    (hreach : s.assembler.reachable = true) : guard op s = .ok () s := by
  simp [guard, Bind.bind, EStateM.bind, get, getThe, MonadStateOf.get, EStateM.get, hopen, hreach,
    Pure.pure, EStateM.pure]

theorem push_eq (ht : t ≠ .void) :
    push t s = .ok () (s.setStack (s.assembler.stack.pushed t)) := by
  simp [push, onStack, OperandStack.push, ht, Assembly.setStack]

theorem pop_eq (htypes : s.assembler.stack.types = x :: rest) (hx : x.isAssignable t = true) :
    pop t s = .ok () (s.setStack s.assembler.stack.popped) := by
  simp [pop, onStack, OperandStack.popAs, htypes, hx, Assembly.setStack, discard, Functor.discard,
    Functor.mapConst, EStateM.map]

theorem drop_eq (htypes : s.assembler.stack.types = x :: rest) :
    onStack OperandStack.pop s = .ok x (s.setStack s.assembler.stack.popped) := by
  simp [onStack, OperandStack.pop, htypes, Assembly.setStack]

theorem dropWidth_eq {slots : Nat} (htypes : s.assembler.stack.types = x :: rest)
    (hx : x.width = slots) :
    onStack (OperandStack.popWidth slots) s = .ok x (s.setStack s.assembler.stack.popped) := by
  simp [onStack, OperandStack.popWidth, htypes, hx, Assembly.setStack]

theorem peek_eq {depth : Nat} (hx : s.assembler.stack.types[depth]? = some x) :
    onStack (OperandStack.peek depth) s = .ok x s := by
  simp [onStack, OperandStack.peek, hx]

theorem localType_eq {slot : UInt16} (ht : s.assembler.locals.type? slot.toNat = some t) :
    localType slot s = .ok t s := by
  simp only [localType, Bind.bind, EStateM.bind, get, getThe, MonadStateOf.get, EStateM.get, ht]
  rfl

theorem popped_types (htypes : s.assembler.stack.types = x :: rest) :
    (s.setStack s.assembler.stack.popped).assembler.stack.types = rest := by
  simp [htypes]

theorem limited_push (ht : t ≠ .void) : Limited (push t) s := .of_ok (push_eq ht)

/-- A member is found unless the table is full or its text is too long. -/
theorem limited_intern {text : Text} {f : UInt16 → Emit β}
    (h : ∀ symbol symbols, Limited (f symbol) { s with symbols }) :
    Limited (intern text >>= f) s := by
  refine Ends.bind ?_
  cases hi : s.symbols.intern text with
  | ok found => exact Ends.of_ok (by simp only [intern, hi]) (h found.1 found.2)
  | error e =>
    have hrun : intern text s = .error e s := by simp only [intern, hi]
    exact Ends.of_error hrun (SymbolTable.isLimit_of_intern hi)

theorem limited_popAll {expected args : List ValueType} {f : PUnit → Emit β}
    (htypes : s.assembler.stack.types = args ++ rest)
    (hargs : List.Forall₂ (fun x t => x.isAssignable t = true) args expected)
    (h : ∀ stack : OperandStack, stack.types = rest → Limited (f ⟨⟩) (s.setStack stack)) :
    Limited (expected.forM pop >>= f) s := by
  induction hargs generalizing s with
  | nil =>
    have hsame := h s.assembler.stack htypes
    exact hsame
  | @cons x t args expected hx _ ih =>
    have hnext := ih (popped_types htypes) h
    rw [List.forM_eq_forM] at hnext ⊢
    rw [List.forM_cons, bind_assoc]
    exact Limited.bind_ok (pop_eq htypes hx) hnext

theorem discard_eq {m : Emit α} {y : α} {s' : Assembly} (h : m s = .ok y s') :
    discard m s = .ok () s' := by
  simp only [discard, Functor.discard, Functor.mapConst, Function.comp_apply, EStateM.map, h]

theorem labelState_eq {label : Nat} {l : LabelState} (hl : s.assembler.labels[label]? = some l) :
    labelState label s = .ok l s := by
  simp only [labelState, Bind.bind, EStateM.bind, get, getThe, MonadStateOf.get, EStateM.get, hl]
  rfl

/-- A jump is written when the label has not seen another shape. -/
theorem limited_branch {label : Nat} {i : Instruction Nat} {l : LabelState}
    (hl : s.assembler.labels[label]? = some l)
    (htypes : l.types = none ∨ l.types = some s.assembler.stack.types) :
    Limited (branch label i) s := by
  have hmerge : ∃ s', merge label l s = .ok () s' := by
    obtain ⟨offset, types, referenced⟩ := l
    rcases htypes with rfl | rfl
    · exact ⟨_, rfl⟩
    · refine ⟨s, ?_⟩
      simp [merge, Bind.bind, EStateM.bind, get, getThe, MonadStateOf.get, EStateM.get, Pure.pure,
        EStateM.pure]
  obtain ⟨s', hs'⟩ := hmerge
  exact Limited.bind_ok (labelState_eq hl) (Limited.bind_ok hs' (.of_ok rfl))

/-- **A request that fits is granted, within the limits of the format.** It fits when its
instruction has an effect on the stack, and the label to which it jumps has not seen another
shape. -/
theorem limited_emission {e : Emission} {after : List ValueType} {symbol : UInt16}
    (hopen : s.assembler.isOpen = true) (hreach : s.assembler.reachable = true)
    (heffect : HasEffect s.assembler.locals s.assembler.returnType e.memberType?
      (e.instruction s.assembler.stack.types s.assembler.returnType symbol)
      s.assembler.stack.types after)
    (hlabel : ∀ label,
      (e.instruction s.assembler.stack.types s.assembler.returnType symbol).target? = some label →
        ∃ l, s.assembler.labels[label]? = some l ∧ (l.types = none ∨ l.types = some after)) :
    Limited (emission e) s := by
  refine Limited.bind_ok (guard_eq e.opcode hopen hreach) ?_
  generalize htypes : s.assembler.stack.types = types at heffect hlabel
  cases e with
  | pushNull | pushUndefined | pushBoolean | pushInt | pushLong | pushNumber =>
    exact Limited.bind_ok rfl (limited_push (by decide))
  | load type slot =>
    cases heffect with
    | load hlocal ht =>
      refine Limited.bind_ok (localType_eq hlocal) ?_
      rw [if_pos ht]
      refine Limited.bind_ok rfl (limited_push ?_)
      exact ValueType.ne_void_of_isAssignable ht (Locals.type?_ne_void hlocal)
  | store type slot =>
    cases heffect with
    | store hlocal ht hx =>
      refine Limited.bind_ok (localType_eq hlocal) ?_
      rw [if_pos ht]
      exact Limited.bind_ok (pop_eq htypes hx) (.of_ok rfl)
  | getStatic owner name type =>
    cases heffect with
    | getStatic ht => exact limited_intern fun _ _ => Limited.bind_ok rfl (limited_push ht)
  | putStatic owner name type =>
    cases heffect with
    | putStatic hx =>
      exact Limited.bind_ok (pop_eq htypes hx) (limited_intern fun _ _ => .of_ok rfl)
  | arrayLoad =>
    cases heffect with
    | @arrayLoad rest i a _ c hc hi ha =>
      replace hc : a.component? = some c := hc
      refine Limited.bind_ok (peek_eq (x := a) (by simp [htypes])) ?_
      simp only [hc]
      refine Limited.bind_ok (pop_eq htypes hi) ?_
      refine Limited.bind_ok (pop_eq (popped_types htypes) ha) ?_
      exact Limited.bind_ok rfl (limited_push (ValueType.ne_void_of_component? hc))
  | arrayStore =>
    cases heffect with
    | @arrayStore rest x i a _ c hc hx hi ha =>
      replace hc : a.component? = some c := hc
      refine Limited.bind_ok (peek_eq (x := a) (by simp [htypes])) ?_
      simp only [hc]
      refine Limited.bind_ok (pop_eq htypes hx) ?_
      refine Limited.bind_ok (pop_eq (popped_types htypes) hi) ?_
      exact Limited.bind_ok (pop_eq (popped_types (popped_types htypes)) ha) (.of_ok rfl)
  | arrayLength =>
    cases heffect with
    | @arrayLength rest a ha =>
      refine Limited.bind_ok (peek_eq (x := a) (by simp [htypes])) ?_
      rw [if_pos ha]
      refine Limited.bind_ok (discard_eq (drop_eq htypes)) ?_
      exact Limited.bind_ok rfl (limited_push (by decide))
  | newArray type =>
    cases heffect with
    | newArray ht hi =>
      simp only [apply, ht, if_true]
      refine Limited.bind_ok (pop_eq htypes hi) (Limited.bind_ok rfl (limited_push ?_))
      exact ValueType.ne_void_of_isArray ht
  | checkCast type =>
    cases heffect with
    | checkCast ht hx =>
      simp only [apply, ht, if_true]
      refine Limited.bind_ok (pop_eq htypes hx) (Limited.bind_ok rfl (limited_push ?_))
      exact ValueType.ne_void_of_isReference ht
  | dup =>
    cases heffect with
    | @dup rest x hx =>
      refine Limited.bind_ok (peek_eq (x := x) (by simp [htypes])) ?_
      simp only [hx, beq_self_eq_true, if_true]
      exact Limited.bind_ok rfl (limited_push (by rintro rfl; cases hx))
  | dup2 =>
    cases heffect with
    | @dup2Wide rest x hx =>
      refine Limited.bind_ok (peek_eq (x := x) (by simp [htypes])) ?_
      simp only [hx, beq_self_eq_true, if_true]
      exact Limited.bind_ok rfl (limited_push (by rintro rfl; cases hx))
    | @dup2Pair rest x y hx hy =>
      refine Limited.bind_ok (peek_eq (x := x) (by simp [htypes])) ?_
      simp only [hx]
      refine Limited.bind_ok (peek_eq (x := y) (by simp [htypes])) ?_
      simp only [hy, beq_self_eq_true, if_true]
      refine Limited.bind_ok rfl (Limited.bind_ok (push_eq (by rintro rfl; cases hy)) ?_)
      exact limited_push (by rintro rfl; cases hx)
  | pop =>
    cases heffect with
    | pop hx => exact Limited.bind_ok (discard_eq (dropWidth_eq htypes hx)) (.of_ok rfl)
  | pop2 =>
    cases heffect with
    | @pop2Wide rest x hx =>
      refine Limited.bind_ok (peek_eq (x := x) (by simp [htypes])) ?_
      simp only [hx, beq_self_eq_true, if_true]
      exact Limited.bind_ok (discard_eq (drop_eq htypes)) (.of_ok rfl)
    | @pop2Pair rest x y hx hy =>
      refine Limited.bind_ok (peek_eq (x := x) (by simp [htypes])) ?_
      simp only [hx]
      refine Limited.bind_ok (discard_eq (dropWidth_eq htypes hx)) ?_
      exact Limited.bind_ok (discard_eq (dropWidth_eq (popped_types htypes) hy)) (.of_ok rfl)
  | swap =>
    cases heffect with
    | swap hx hy =>
      refine Limited.bind_ok (dropWidth_eq htypes hx) ?_
      refine Limited.bind_ok (dropWidth_eq (popped_types htypes) hy) ?_
      refine Limited.bind_ok rfl (Limited.bind_ok (push_eq (by rintro rfl; cases hx)) ?_)
      exact limited_push (by rintro rfl; cases hy)
  | arithmetic op type =>
    -- the four operations have the same effect, by a rule each
    obtain ⟨x, y, rest, rfl, ht, hx, hy⟩ : ∃ x y rest, types = x :: y :: rest ∧
        type.isNumeric = true ∧ x.isAssignable type = true ∧ y.isAssignable type = true := by
      cases op <;> cases heffect <;> exact ⟨_, _, _, rfl, ‹_›, ‹_›, ‹_›⟩
    simp only [apply, ht, if_true]
    refine Limited.bind_ok (pop_eq htypes hx) (Limited.bind_ok (pop_eq (popped_types htypes) hy) ?_)
    exact Limited.bind_ok rfl (limited_push (ValueType.ne_void_of_isNumeric ht))
  | neg type =>
    cases heffect with
    | neg ht hx =>
      simp only [apply, ht, if_true]
      refine Limited.bind_ok (pop_eq htypes hx) (Limited.bind_ok rfl (limited_push ?_))
      exact ValueType.ne_void_of_isNumeric ht
  | convert source target =>
    cases heffect with
    | convert ht hu hne hx =>
      simp only [apply, ht, hu, beq_eq_false_iff_ne.mpr hne]
      refine Limited.bind_ok (pop_eq htypes hx) (Limited.bind_ok rfl (limited_push ?_))
      exact ValueType.ne_void_of_isNumeric hu
  | invoke owner name signature =>
    generalize hmember : (Emission.invoke owner name signature).memberType? = member at heffect
    cases heffect with
    | invoke hargs =>
      cases hmember
      refine limited_popAll htypes hargs fun stack hstack => limited_intern fun _ _ => ?_
      refine Limited.bind_ok rfl ?_
      split
      · exact .pure _
      · next hresult => exact limited_push (by simpa using hresult)
  | newScope size =>
    cases heffect with
    | newScope hx =>
      exact Limited.bind_ok (pop_eq htypes hx) (Limited.bind_ok rfl (limited_push (by decide)))
  | jump label =>
    cases heffect with
    | jump =>
      obtain ⟨l, hl, hseen⟩ := hlabel label rfl
      refine (limited_branch hl (htypes ▸ hseen)).bind fun _ _ _ => .of_ok rfl
  | ifTrue label =>
    cases heffect with
    | ifTrue hx =>
      obtain ⟨l, hl, hseen⟩ := hlabel label rfl
      refine Limited.bind_ok (pop_eq htypes hx) (limited_branch hl ?_)
      rwa [popped_types htypes]
  | ifFalse label =>
    cases heffect with
    | ifFalse hx =>
      obtain ⟨l, hl, hseen⟩ := hlabel label rfl
      refine Limited.bind_ok (pop_eq htypes hx) (limited_branch hl ?_)
      rwa [popped_types htypes]
  | returnValue =>
    generalize hresult : s.assembler.returnType = result at heffect
    cases heffect with
    | returnValue hvoid hx =>
      refine Limited.bind_ok rfl ?_
      dsimp only
      rw [hresult, if_neg (by simpa using hvoid)]
      exact Limited.bind_ok (pop_eq htypes hx) (.of_ok rfl)
  | returnVoid =>
    cases heffect with
    | returnVoid hresult =>
      refine Limited.bind_ok rfl ?_
      dsimp only
      rw [hresult]
      exact .of_ok rfl

end Emit

/-! ### Code that is known beforehand -/

namespace Code

variable {α : Type}

/-- The callee is copied to another local, if there is one. -/
def copyCallee (callee : Option UInt16) (self : UInt16) : List (Instruction α) :=
  callee.elim [] fun callee => [⟨.load, (.callee, callee)⟩, ⟨.store, (.callee, self)⟩]

/-- A scope record is made inside the parent scope, or inside none. -/
def makeScope (parentScope : Option UInt16) (size scope : UInt16) : List (Instruction α) :=
  [parentScope.elim ⟨.pushNull, ()⟩ fun parent => ⟨.load, (.scope, parent)⟩,
    ⟨.newScope, size⟩, ⟨.store, (.scope, scope)⟩]

end Code

/-- The first instructions of a routine with these slots: those that fill the slot of the function
under its own name, then those that fill the slot of the scope record. -/
def Layout.prologue {α : Type} (layout : Layout) (scopeSize : UInt16) : List (Instruction α) :=
  layout.self.elim [] (Code.copyCallee layout.callee) ++
    layout.scope.elim [] (Code.makeScope layout.parentScope scopeSize)

namespace Attributes

/-- The local for a copy of the callee, if there is one. -/
def copies (a : Attributes) : List ValueType := if a.usesSelfSymbol then [.callee] else []

/-- The local for the scope record, if there is one. -/
def records (a : Attributes) : List ValueType := if a.hasScopeBlock then [.scope] else []

end Attributes

/-- A local takes the slots of its width. -/
theorem Locals.slots_define (l : Locals) {t : ValueType} (ht : t ≠ .void) :
    (l.define t).slots = l.slots + t.width := by
  have hwidth : (slotsFor t).length = t.width := by cases t <;> first | rfl | exact absurd rfl ht
  exact congrArg (l.slots + ·) hwidth

/-- A new local starts at the first slot that was free. -/
theorem Locals.type?_define (l : Locals) {t : ValueType} (ht : t ≠ .void) :
    (l.define t).type? l.slots = some t := by
  rw [type?_eq_some, toList_define, ← l.length_toList, List.getElem?_append_right le_rfl,
    Nat.sub_self]
  refine ⟨?_, ht⟩
  unfold slotsFor
  split
  · rfl
  · rfl

theorem Assembler.defineLocal_eq_ok {a b : Assembler} {t : ValueType} {slot : UInt16}
    (h : a.defineLocal t = .ok (slot, b)) :
    b = { a with locals := a.locals.define t } ∧ slot.toNat = a.locals.slots ∧
      b.locals.type? slot.toNat = some t := by
  unfold Assembler.defineLocal at h
  split at h
  · cases h
  · next hvoid =>
    split at h
    · cases h
    · next hroom =>
      cases h
      have hslot : a.locals.slots.toUInt16.toNat = a.locals.slots := by
        rw [Nat.toUInt16_eq, UInt16.toNat_ofNat_of_lt']
        exact Nat.lt_succ_of_le ((Nat.le_add_right _ _).trans (Nat.not_lt.mp hroom))
      refine ⟨rfl, hslot, ?_⟩
      rw [hslot]
      exact Locals.type?_define _ (by simpa using hvoid)

theorem Assembler.isLimit_of_defineLocal {a : Assembler} {t : ValueType} {e : Error}
    (ht : t ≠ .void) (h : a.defineLocal t = .error e) : e.IsLimit := by
  unfold Assembler.defineLocal at h
  rw [if_neg (by simpa using ht)] at h
  split at h
  · cases h
    exact Error.isLimit _ _
  · cases h

/-- A local of type void is refused. -/
theorem Emit.defineLocal_void (s : Assembly) :
    Emit.defineLocal .void s = .error (.typing s.assembler.routine .voidLocal) s := rfl

/-- A local is defined when there is room for it. -/
theorem Emit.defineLocal_of_room {t : ValueType} {s : Assembly} (ht : t ≠ .void)
    (hroom : s.assembler.locals.slots + t.width ≤ 65535) :
    Emit.defineLocal t s = .ok s.assembler.locals.slots.toUInt16 { s with assembler :=
      { s.assembler with locals := s.assembler.locals.define t } } := by
  simp [Emit.defineLocal, Assembler.defineLocal, ht, Nat.not_lt.mpr hroom]

/-- A local is refused when there is no room for it, and that is attributed to the code. -/
theorem Emit.defineLocal_of_full {t : ValueType} {s : Assembly} (ht : t ≠ .void)
    (hfull : 65535 < s.assembler.locals.slots + t.width) :
    Emit.defineLocal t s = .error (.unsupported s.assembler.routine .locals) s := by
  simp [Emit.defineLocal, Assembler.defineLocal, ht, hfull]

/-- Code is complete when control cannot leave it at the end and all jumps have a target. -/
theorem Assembler.succeeds_finish {a : Assembler} (hreach : a.reachable = false)
    (hbound : a.unbound? = none) : Succeeds a.finish := by
  obtain ⟨code, hcode⟩ := exists_patched hreach hbound
  rw [finish, hcode]
  exact ⟨code.bytes, rfl⟩

/-- Straight code, open at its end: no label has been made, and these are the locals and the shape
of the stack there. -/
structure Assembler.Stands (a : Assembler) (locals : Locals) (result : ValueType)
    (types : List ValueType) : Prop where
  isOpen : a.isOpen = true
  reachable : a.reachable = true
  labels_eq : a.labels = #[]
  locals_eq : a.locals = locals
  result_eq : a.returnType = result
  types_eq : a.stack.types = types
  noVoid : .void ∉ types

namespace Emit

variable {s : Assembly} {locals : Locals} {result : ValueType} {types after : List ValueType}
  {e : Emission}

/-- A request that fits straight code is granted, within the limits of the format, and the shape
after it is known. -/
theorem ends_emission_straight (hs : s.assembler.Stands locals result types)
    (heffect : ∀ symbol, HasEffect locals result e.memberType? (e.instruction types result symbol)
      types after)
    (hstraight : ∀ symbol, (e.instruction types result symbol).target? = none) :
    Ends (emission e) s
      (fun _ t => ∃ symbol stack, stack.types = after ∧
        t.assembler = s.assembler.emitted (e.instruction types result symbol) stack)
      fun e _ => e.IsLimit := by
  obtain ⟨hopen, hreach, -, rfl, rfl, rfl, hvoid⟩ := hs
  have hlimited : Limited (emission e) s :=
    limited_emission hopen hreach (heffect 0) fun label hlabel => by
      rw [hstraight] at hlabel
      cases hlabel
  refine ((ends_emission hvoid).limited hlimited).mono ?_ fun _ _ he => he
  rintro - t ⟨symbol, stack, he⟩
  exact ⟨symbol, stack, he.effect.unique (heffect symbol), he.assembler_eq⟩

/-- Code goes on straight. -/
theorem ends_emission_stands (hs : s.assembler.Stands locals result types)
    (heffect : ∀ symbol, HasEffect locals result e.memberType? (e.instruction types result symbol)
      types after)
    (hplain : ∀ symbol, (e.instruction types result symbol).target? = none ∧
      (e.instruction types result symbol).op.isTerminal = false) :
    Ends (emission e) s (fun _ t => t.assembler.Stands locals result after)
      fun e _ => e.IsLimit := by
  have hstraight := ends_emission_straight hs heffect fun symbol => (hplain symbol).1
  refine hstraight.mono ?_ fun _ _ he => he
  rintro - t ⟨symbol, stack, htypes, ht⟩
  obtain ⟨htarget, hterminal⟩ := hplain symbol
  rw [ht]
  refine ⟨hs.isOpen, ?_, ?_, hs.locals_eq, hs.result_eq, htypes, (heffect symbol).noVoid hs.noVoid⟩
  · rw [Assembler.emitted, hterminal]
    rfl
  · rw [Assembler.emitted, Assembler.labelsAfter, htarget]
    exact hs.labels_eq

/-- Code ends with an instruction after which there is no next one, and can be finished. -/
theorem ends_emission_finish (hs : s.assembler.Stands locals result types)
    (heffect : ∀ symbol, HasEffect locals result e.memberType? (e.instruction types result symbol)
      types after)
    (hlast : ∀ symbol, (e.instruction types result symbol).target? = none ∧
      (e.instruction types result symbol).op.isTerminal = true) :
    Ends (emission e) s (fun _ t => Succeeds t.assembler.finish) fun e _ => e.IsLimit := by
  refine (ends_emission_straight hs heffect fun symbol => (hlast symbol).1).mono ?_ fun _ _ he => he
  rintro - t ⟨symbol, stack, -, ht⟩
  obtain ⟨htarget, hterminal⟩ := hlast symbol
  have hreach : t.assembler.reachable = false := by
    rw [ht, Assembler.emitted, hterminal]
    rfl
  have hlabels : t.assembler.labels = #[] := by
    rw [ht, Assembler.emitted, Assembler.labelsAfter, htarget]
    exact hs.labels_eq
  refine Assembler.succeeds_finish hreach ?_
  rw [Assembler.unbound?, hlabels, Array.findIdx?_empty]

/-- Straight code goes on by `code`, with the symbols that were there before. -/
structure Standing (s : Assembly) (locals : Locals) (result : ValueType) (types : List ValueType)
    (code : List (Instruction Nat)) (t : Assembly) : Prop where
  stands : t.assembler.Stands locals result types
  symbols_eq : t.symbols = s.symbols
  code_eq : t.assembler.instructions = s.assembler.instructions ++ code

theorem Standing.refl (hs : s.assembler.Stands locals result types) :
    Standing s locals result types [] s :=
  ⟨hs, rfl, (List.append_nil _).symm⟩

theorem Standing.trans {t u : Assembly} {more : Locals} {code rest : List (Instruction Nat)}
    (h : Standing s locals result types code t) (h' : Standing t more result after rest u) :
    Standing s more result after (code ++ rest) u where
  stands := h'.stands
  symbols_eq := h'.symbols_eq.trans h.symbols_eq
  code_eq := by rw [h'.code_eq, h.code_eq, List.append_assoc]

/-- A request that was granted and names no member leaves the symbols alone and adds its
instruction. -/
theorem ends_emission_standing {t : Assembly} (hrun : emission e s = .ok () t)
    (hmember : e.member? = none) (hs : s.assembler.Stands locals result types)
    (heffect : ∀ symbol, HasEffect locals result e.memberType? (e.instruction types result symbol)
      types after)
    (hplain : ∀ symbol, (e.instruction types result symbol).target? = none ∧
      (e.instruction types result symbol).op.isTerminal = false)
    {i : Instruction Nat} (hi : ∀ symbol, e.instruction types result symbol = i) :
    Ends (emission e) s (fun _ => Standing s locals result after [i]) fun _ _ => False := by
  refine Ends.of_ok hrun ⟨(ends_emission_stands hs heffect hplain).ok hrun, ?_, ?_⟩
  all_goals
    have hvoid : .void ∉ s.assembler.stack.types := hs.types_eq ▸ hs.noVoid
    obtain ⟨symbol, stack, he⟩ := (ends_emission hvoid).ok hrun
  · rcases he.interned with ⟨-, hsymbols⟩ | ⟨text, htext, -⟩
    · exact hsymbols
    · rw [hmember] at htext
      cases htext
  · rw [he.assembler_eq, hs.types_eq, hs.result_eq, hi]
    exact List.reverse_cons

/-- Both of two steps give a value when the second one does after the first one. -/
theorem runs_bind {α β : Type} {m : Emit α} {f : α → Emit β} {x : α} {t : Assembly}
    (hm : m s = .ok x t) (hf : ∃ y u, f x t = .ok y u) : ∃ y u, (m >>= f) s = .ok y u := by
  simpa only [Bind.bind, EStateM.bind, hm] using hf

theorem runs_emission (hs : s.assembler.Stands locals result types)
    (happly : ∃ x t, apply e s = .ok x t) : ∃ t, emission e s = .ok () t := by
  obtain ⟨_, t, hrun⟩ := runs_bind (f := fun _ => apply e)
    (guard_eq e.opcode hs.isOpen hs.reachable) happly
  exact ⟨t, hrun⟩

/-- Null is pushed. -/
theorem ends_pushNull_standing (hs : s.assembler.Stands locals result types) :
    Ends (emission .pushNull) s
      (fun _ => Standing s locals result (.object :: types) [⟨.pushNull, ()⟩])
      fun _ _ => False := by
  have happly : ∃ x t, apply .pushNull s = .ok x t := runs_bind rfl ⟨_, _, push_eq (by decide)⟩
  obtain ⟨t, hrun⟩ := runs_emission hs happly
  exact ends_emission_standing hrun rfl hs (fun _ => .pushNull) (fun _ => ⟨rfl, rfl⟩) fun _ => rfl

/-- A local is pushed at its own type. -/
theorem ends_load_standing {type : ValueType} {slot : UInt16}
    (hlocal : locals.type? slot.toNat = some type) (hself : type.isAssignable type = true)
    (hs : s.assembler.Stands locals result types) :
    Ends (emission (.load type slot)) s
      (fun _ => Standing s locals result (type :: types) [⟨.load, (type, slot)⟩])
      fun _ _ => False := by
  have hfound : s.assembler.locals.type? slot.toNat = some type := hs.locals_eq.symm ▸ hlocal
  have happly : ∃ x t, apply (.load type slot) s = .ok x t := by
    refine runs_bind (localType_eq hfound) ?_
    rw [if_pos hself]
    exact runs_bind rfl ⟨_, _, push_eq (Locals.type?_ne_void hlocal)⟩
  obtain ⟨t, hrun⟩ := runs_emission hs happly
  exact ends_emission_standing hrun rfl hs (fun _ => .load hlocal hself) (fun _ => ⟨rfl, rfl⟩)
    fun _ => rfl

/-- A value is taken to a local of its own type. -/
theorem ends_store_standing {type : ValueType} {slot : UInt16}
    (hlocal : locals.type? slot.toNat = some type) (hself : type.isAssignable type = true)
    (hs : s.assembler.Stands locals result (type :: types)) :
    Ends (emission (.store type slot)) s
      (fun _ => Standing s locals result types [⟨.store, (type, slot)⟩])
      fun _ _ => False := by
  have hfound : s.assembler.locals.type? slot.toNat = some type := hs.locals_eq.symm ▸ hlocal
  have happly : ∃ x t, apply (.store type slot) s = .ok x t := by
    refine runs_bind (localType_eq hfound) ?_
    rw [if_pos hself]
    exact runs_bind (pop_eq hs.types_eq hself) ⟨_, _, rfl⟩
  obtain ⟨t, hrun⟩ := runs_emission hs happly
  exact ends_emission_standing hrun rfl hs (fun _ => .store hlocal hself hself)
    (fun _ => ⟨rfl, rfl⟩) fun _ => rfl

/-- A scope record is made inside the scope on the stack. -/
theorem ends_newScope_standing {x : ValueType} {size : UInt16}
    (hx : x.isAssignable .object = true) (hs : s.assembler.Stands locals result (x :: types)) :
    Ends (emission (.newScope size)) s
      (fun _ => Standing s locals result (.scope :: types) [⟨.newScope, size⟩])
      fun _ _ => False := by
  have happly : ∃ y t, apply (.newScope size) s = .ok y t :=
    runs_bind (pop_eq hs.types_eq hx) (runs_bind rfl ⟨_, _, push_eq (by decide)⟩)
  obtain ⟨t, hrun⟩ := runs_emission hs happly
  exact ends_emission_standing hrun rfl hs (fun _ => .newScope hx) (fun _ => ⟨rfl, rfl⟩)
    fun _ => rfl

/-- A limit is exceeded because there is no room for so many slots. -/
def Crowded (slots : Nat) (e : Error) : Prop := e.IsLimit ∧ 65535 < slots

/-- A new local is there from now on, at the first free slot, if there is room for it. -/
theorem ends_defineLocal_standing {t : ValueType} (ht : t ≠ .void)
    (hs : s.assembler.Stands locals result types) :
    Ends (defineLocal t) s
      (fun slot s' => Standing s (locals.define t) result types [] s' ∧
        slot.toNat = locals.slots ∧ (locals.define t).type? slot.toNat = some t)
      fun e _ => Crowded (locals.slots + t.width) e := by
  obtain ⟨hopen, hreach, hlabels, rfl, hresult, htypes, hvoid⟩ := hs
  cases hlocal : s.assembler.defineLocal t with
  | ok found =>
    have hrun : defineLocal t s = .ok found.1 { s with assembler := found.2 } := by
      simp only [defineLocal, hlocal]
    obtain ⟨hfound, hslot, htype⟩ := Assembler.defineLocal_eq_ok hlocal
    refine Ends.of_ok hrun ?_
    rw [hfound] at htype ⊢
    exact ⟨⟨⟨hopen, hreach, hlabels, rfl, hresult, htypes, hvoid⟩, rfl,
      (List.append_nil _).symm⟩, hslot, htype⟩
  | error e =>
    have hrun : defineLocal t s = .error e s := by simp only [defineLocal, hlocal]
    refine Ends.of_error hrun ⟨Assembler.isLimit_of_defineLocal ht hlocal, ?_⟩
    by_contra hroom
    simp [Assembler.defineLocal, ht, hroom] at hlocal

/-- The callee is copied to a new local, if there is room for it. -/
theorem ends_selfLocal {callee : Option UInt16}
    (hcallee : ∀ slot, callee = some slot → locals.type? slot.toNat = some .callee)
    (hs : s.assembler.Stands locals result []) :
    Ends (selfLocal callee) s
      (fun self t => Standing s (locals.define .callee) result [] (Code.copyCallee callee self) t ∧
        self.toNat = locals.slots)
      fun e _ => Crowded (locals.slots + 1) e := by
  refine (ends_defineLocal_standing (by decide) hs).next ?_
  rintro self t ⟨ht, hslot, hself⟩
  cases callee with
  | none => exact ⟨ht, hslot⟩
  | some slot =>
    have hfrom := (locals.extends_define .callee).type? (hcallee slot rfl)
    refine Ends.bind ((ends_load_standing hfrom rfl ht.stands).mono ?_ fun _ _ => False.elim)
    intro _ u hu
    refine Ends.bind ((ends_store_standing hself rfl hu.stands).mono ?_ fun _ _ => False.elim)
    intro _ v hv
    exact ⟨ht.trans (hu.trans hv), hslot⟩

/-- A scope record is made and kept in a new local, if there is room for it. -/
theorem ends_scopeLocal {parentScope : Option UInt16} {size : UInt16}
    (hparent : ∀ slot, parentScope = some slot → locals.type? slot.toNat = some .scope)
    (hs : s.assembler.Stands locals result []) :
    Ends (scopeLocal parentScope size) s
      (fun scope t => Standing s (locals.define .scope) result []
          (Code.makeScope parentScope size scope) t ∧ scope.toNat = locals.slots)
      fun e _ => Crowded (locals.slots + 1) e := by
  refine (ends_defineLocal_standing (by decide) hs).next ?_
  rintro scope t ⟨ht, hslot, hscope⟩
  -- whichever parent is on the stack, what comes next takes it
  have hrest : ∀ {x u i}, x.isAssignable .object = true →
      Standing t (locals.define .scope) result [x] [i] u →
      Ends (do
          emission (.newScope size)
          emission (.store .scope scope)
          return scope) u
        (fun found v => Standing s (locals.define .scope) result []
          [i, ⟨.newScope, size⟩, ⟨.store, (.scope, found)⟩] v ∧ found.toNat = locals.slots)
        fun e _ => Crowded (locals.slots + 1) e := by
    intro x u i hx hu
    refine Ends.bind ((ends_newScope_standing hx hu.stands).mono ?_ fun _ _ => False.elim)
    intro _ v hv
    refine Ends.bind ((ends_store_standing hscope rfl hv.stands).mono ?_ fun _ _ => False.elim)
    intro _ w hw
    exact ⟨ht.trans (hu.trans (hv.trans hw)), hslot⟩
  cases parentScope with
  | none =>
    refine Ends.bind ((ends_pushNull_standing ht.stands).mono ?_ fun _ _ => False.elim)
    exact fun _ u hu => hrest rfl hu
  | some slot =>
    have hfrom := (locals.extends_define .scope).type? (hparent slot rfl)
    refine Ends.bind ((ends_load_standing hfrom rfl ht.stands).mono ?_ fun _ _ => False.elim)
    exact fun _ u hu => hrest rfl hu

/-- **The prologue of a function is written**, when the slots of the callee and of the parent scope
hold them, and there is room for two more locals. These take the next slots, and the instructions
follow from the slots. -/
theorem ends_prologue {a : Attributes} {layout : Layout} {scopeSize : Nat}
    (hcallee : ∀ slot, layout.callee = some slot → locals.type? slot.toNat = some .callee)
    (hparent : ∀ slot, layout.parentScope = some slot → locals.type? slot.toNat = some .scope)
    (hs : s.assembler.Stands locals result []) :
    Ends (prologue a layout scopeSize) s
      (fun filled t => filled = { layout with self := filled.self, scope := filled.scope } ∧
        filled.self.toList.map UInt16.toNat = (if a.usesSelfSymbol then [locals.slots] else []) ∧
        filled.scope.toList.map UInt16.toNat = (if a.hasScopeBlock then
          [(a.copies.foldl Locals.define locals).slots] else []) ∧
        Standing s ((a.copies ++ a.records).foldl Locals.define locals) result []
          (filled.prologue scopeSize.toUInt16) t)
      fun e _ => Crowded (locals.slots + 2) e := by
  -- the scope record comes after the copy of the callee, if there is one
  have hscope : ∀ (self : Option UInt16) {more : Locals} {t : Assembly}, more.Extends locals →
      more.slots ≤ locals.slots + 1 →
      Standing s more result [] (self.elim [] (Code.copyCallee layout.callee)) t →
      Ends (do
          let scope ←
            if a.hasScopeBlock then some <$> scopeLocal layout.parentScope scopeSize.toUInt16
            else pure none
          return { layout with self, scope }) t
        (fun filled u => filled = { layout with self, scope := filled.scope } ∧
          filled.scope.toList.map UInt16.toNat = (if a.hasScopeBlock then [more.slots] else []) ∧
          Standing s (a.records.foldl Locals.define more) result []
            (filled.prologue scopeSize.toUInt16) u)
        fun e _ => Crowded (locals.slots + 2) e := by
    intro self more t hmore hslots ht
    unfold Attributes.records
    cases a.hasScopeBlock with
    | false => exact ⟨rfl, rfl, by simpa [Layout.prologue] using ht⟩
    | true =>
      have hparent' : ∀ slot, layout.parentScope = some slot →
          more.type? slot.toNat = some .scope := fun slot h => hmore.type? (hparent slot h)
      refine Ends.bind (Ends.map ((ends_scopeLocal hparent' ht.stands).mono ?_ ?_))
      · rintro scope u ⟨hu, hslot⟩
        exact ⟨rfl, congrArg (fun n => [n]) hslot, ht.trans hu⟩
      · rintro e - ⟨hlimit, hroom⟩
        exact ⟨hlimit, by omega⟩
  unfold prologue Attributes.copies
  cases a.usesSelfSymbol with
  | false =>
    refine (hscope none (.refl locals) (Nat.le_succ _) (.refl hs)).mono ?_ fun _ _ he => he
    rintro filled t ⟨hfilled, hslot, ht⟩
    exact ⟨by rw [hfilled], by rw [hfilled]; rfl, hslot, ht⟩
  | true =>
    refine Ends.bind (Ends.map ((ends_selfLocal hcallee hs).mono ?_ ?_))
    · rintro self t ⟨ht, hself⟩
      have hrest := hscope (some self) (locals.extends_define .callee) le_rfl ht
      refine hrest.mono ?_ fun _ _ he => he
      rintro filled u ⟨hfilled, hslot, hu⟩
      exact ⟨by rw [hfilled], by rw [hfilled]; exact congrArg (fun n => [n]) hself, hslot, hu⟩
    · rintro e - ⟨hlimit, hroom⟩
      exact ⟨hlimit, by omega⟩

theorem limited_prologue {a : Attributes} {layout : Layout} {scopeSize : Nat}
    (hcallee : ∀ slot, layout.callee = some slot → locals.type? slot.toNat = some .callee)
    (hparent : ∀ slot, layout.parentScope = some slot → locals.type? slot.toNat = some .scope)
    (hs : s.assembler.Stands locals result []) : Limited (prologue a layout scopeSize) s :=
  (ends_prologue hcallee hparent hs).mono (fun _ _ _ => trivial) fun _ _ he => he.1

end Emit

end Bytecode
