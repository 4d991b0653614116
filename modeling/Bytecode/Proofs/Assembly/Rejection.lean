import Mathlib
import Bytecode.Proofs.Assembly.Progress
import Bytecode.Proofs.Assembly.Transcript

/-!
# Rejected calls

A call that is rejected writes no code. It may have taken values from the stack before the check
that rejects it, but the bytes of the code, the places where offsets are missing, the labels, the
locals, the reachability of the end of the code and the symbol table are as they were.

There is one exception. Whether a value can stand on the stack is looked at when it is pushed, and a
static field is pushed last: by the time a field of type void is rejected, its symbol is interned
and its instruction written.

## Main definitions

* `Assembly.Spared`: nothing but values on the stack is gone
* `Assembly.Leaks`: the call is for a void field, and nothing rejects it before it has written
* `Assembly.Leaked`: a void field has left its instruction and its symbol behind

## Main results

* `Emit.ends_call_rejected`: how a rejected call leaves an assembly that calls have led to
* `Emit.leaked_voidField`: a rejected field that has grown the code and the symbol table
-/

namespace Bytecode

namespace Assembly

/-- Nothing but values on the stack is gone: code, missing offsets, labels, locals and symbols are
those of `s`. -/
structure Spared (s t : Assembly) : Prop where
  eq : t = s.setStack t.assembler.stack
  suffix : t.assembler.stack.types <:+ s.assembler.stack.types
  maxDepth_eq : t.assembler.stack.maxDepth = s.assembler.stack.maxDepth

theorem Spared.refl (s : Assembly) : s.Spared s := ⟨rfl, List.suffix_refl _, rfl⟩

/-- The call is for a static field of type void, in code that is open and can be reached, and there
is room for the symbol of the field. -/
def Leaks (s : Assembly) (c : Call) : Prop :=
  ∃ owner name, c = .request (.emission (.getStatic owner name .void)) ∧
    s.assembler.isOpen = true ∧ s.assembler.reachable = true ∧
    Succeeds (s.symbols.intern (SymbolTable.member owner name ValueType.void.descriptor))

/-- The call was for a static field of type void, and `t` has its instruction and its symbol. -/
def Leaked (s : Assembly) (c : Call) (t : Assembly) : Prop :=
  ∃ owner name symbol symbols, c = .request (.emission (.getStatic owner name .void)) ∧
    s.symbols.intern (SymbolTable.member owner name ValueType.void.descriptor) =
      .ok (symbol, symbols) ∧
    t = ⟨s.assembler.append ⟨.getStatic, symbol⟩, symbols⟩

end Assembly

/-- A void field is the only emission that is rejected with its instruction written. -/
theorem Refused.spared_or_leaks {e : Emission} {s t : Assembly} (h : Refused e s t) :
    s.Spared t ∨ s.Leaks (.request (.emission e)) := by
  cases h with
  | taken hsuffix hdepth => exact .inl ⟨rfl, hsuffix, hdepth⟩
  | written he hopen hreach hsymbol =>
    subst he
    exact .inr ⟨_, _, rfl, hopen, hreach, _, hsymbol⟩

namespace Emit

/-- Every call is safe. -/
theorem safe_call (c : Call) : Safe (Emit.call c) := by
  cases c with
  | request r => exact safe_request r
  | finish => exact safe_finish.map _
  | reference text => exact (safe_intern text).map _

/-- Such a field is always rejected, and only after it has written. -/
theorem ends_call_of_leaks {s : Assembly} {c : Call} (h : s.Leaks c) :
    Ends (Emit.call c) s (fun _ _ => False) (fun _ t => s.Leaked c t) := by
  obtain ⟨owner, name, rfl, hopen, hreach, ⟨symbol, symbols⟩, hsymbol⟩ := h
  have hguard : Emit.guard .getStatic s = .ok () s := guard_eq _ hopen hreach
  have hintern : Emit.intern (SymbolTable.member owner name ValueType.void.descriptor) s =
      .ok symbol { s with symbols } := by
    unfold Emit.intern
    rw [hsymbol]
  refine Ends.bind (Ends.of_ok hguard (Ends.bind (Ends.of_ok hintern ?_)))
  refine Ends.bind (ends_write ?_)
  -- nothing of type void is ever pushed
  exact ⟨owner, name, symbol, symbols, rfl, hsymbol, rfl⟩

/-- A request that is rejected in linked code. -/
theorem ends_request_rejected (r : Request) {s : Assembly} (hs : s.Linked) :
    Ends (Emit.request r) s (fun _ _ => True) (fun _ t => s.Spared t ∨ s.Leaks (.request r)) := by
  have hsame : s.Spared s ∨ s.Leaks (.request r) := .inl (.refl s)
  cases r with
  | openCode => exact trivial
  | close => exact trivial
  | newLabel => exact trivial
  | defineLocal type =>
    exact Ends.map (ends_defineLocal (fun _ => hsame) fun _ _ => trivial)
  | bind label =>
    refine ends_bind.mono (fun _ _ _ => trivial) ?_
    rintro - t rfl
    exact hsame
  | emission e =>
    refine (ends_emission hs.wellFormed.noVoid).mono (fun _ _ _ => trivial) ?_
    intro _ t ht
    exact ht.spared_or_leaks

/-- A call that is rejected in linked code. -/
theorem ends_call_spared_or_leaks (c : Call) {s : Assembly} (hs : s.Linked) :
    Ends (Emit.call c) s (fun _ _ => True) (fun _ t => s.Spared t ∨ s.Leaks c) := by
  cases c with
  | request r => exact ends_request_rejected r hs
  | finish =>
    exact Ends.map (ends_finish (fun _ => .inl (.refl s)) fun _ _ => trivial)
  | reference text =>
    exact Ends.map (ends_intern (fun _ => .inl (.refl s)) fun _ _ _ => trivial)

theorem ends_localType_same (slot : UInt16) (s : Assembly) :
    Ends (Emit.localType slot) s (fun _ t => t = s) (fun _ t => t = s) :=
  ends_localType (fun _ => rfl) fun _ _ => rfl

end Emit

/-- Calls keep code linked and its result as it is, granted or not. -/
theorem Assembly.Linked.evolves_after {s : Assembly} (hs : s.Linked) (calls : List Call) :
    s.Evolves (s.after calls) := by
  induction calls generalizing s with
  | nil => exact .refl hs
  | cons c calls ih =>
    have hstep : s.Evolves (leaves (Emit.call c) s) := (Emit.safe_call c s hs).leaves
    exact hstep.trans (ih hstep.linked)

theorem Assembly.Linked.after {s : Assembly} (hs : s.Linked) (calls : List Call) :
    (s.after calls).Linked := (hs.evolves_after calls).linked

/-- **A rejected call writes no code, unless it is for a void field.** Whatever was asked of an
assembler before, granted or not: a call that fails leaves code, labels, locals, reachability and
symbols as they were, with at most some values gone from the stack. The one exception is a static
field of type void that no earlier check rejects. It fails always, with its instruction written and
its symbol interned. Asking for the type of a local never changes anything. -/
theorem Emit.ends_call_rejected (routine owner : Text) (returnType : ValueType)
    (calls : List Call) :
    let s := (Assembly.start routine returnType owner).after calls
    (∀ c, Ends (Emit.call c) s (fun _ _ => ¬ s.Leaks c)
      (fun _ t => (¬ s.Leaks c → s.Spared t) ∧ (s.Leaks c → s.Leaked c t))) ∧
      ∀ slot, Ends (Emit.localType slot) s (fun _ t => t = s) (fun _ t => t = s) := by
  intro s
  have hs : s.Linked := (Assembly.Transcribes.start routine returnType owner).linked.after calls
  refine ⟨fun c => ?_, fun slot => Emit.ends_localType_same slot s⟩
  by_cases hleaks : s.Leaks c
  · refine (Emit.ends_call_of_leaks hleaks).mono (fun _ _ => False.elim) ?_
    intro _ t ht
    exact ⟨fun hnot => absurd hleaks hnot, fun _ => ht⟩
  · refine (Emit.ends_call_spared_or_leaks c hs).mono (fun _ _ _ => hleaks) ?_
    intro _ t ht
    exact ⟨fun _ => ht.resolve_right hleaks, fun h => absurd h hleaks⟩

/-- A static field of type void is rejected with three bytes of code and one symbol left behind. -/
theorem Emit.leaked_voidField : ∃ e t,
    Emit.call (.request (.emission (.getStatic [111] [110] .void)))
      ((Assembly.start [114] .void []).after [.request .openCode]) = .error e t ∧
    ((Assembly.start [114] .void []).after [.request .openCode]).assembler.size = 0 ∧
    t.assembler.size = 3 ∧ t.symbols.entries = [[111, 46, 110, 58, 86]] := by
  refine ⟨_, _, rfl, ?_, ?_, ?_⟩ <;> decide +kernel

end Bytecode
