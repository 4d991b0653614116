import Mathlib
import Bytecode.Proofs.Assembly.WellFormed

/-!
# Why requests fail

A request to an assembler fails for one of two reasons: it does not fit the code before it, or it
meets a limit of the unit format. The first is the fault of whoever makes the request, the second
may be that of the program. No request fails for a third reason, whatever it is and whenever it is
made.

## Main definitions

* `Error.IsMisuse`, `Error.IsLimit`: the two reasons
* `Emit.Faults`: a step that fails for one of them only

## Main results

* `Emit.faults_request`: every request does
-/

namespace Bytecode

namespace Error

/-- Something was asked for that does not fit the code or the phase of a routine. -/
def IsMisuse (e : Error) : Prop := e.kind = .stackMismatch ∨ e.kind = .state

/-- A limit of the unit format is exceeded. -/
def IsLimit (e : Error) : Prop := e.kind = .unsupportedInput

theorem isLimit (function : Text) (limit : Limit) : (Error.unsupported function limit).IsLimit :=
  rfl

theorem IsLimit.exists {e : Error} (h : e.IsLimit) :
    ∃ function limit, e = .unsupported function limit := by
  cases e with
  | unsupported function limit => exact ⟨function, limit, rfl⟩
  | _ => cases h

end Error

theorem Wire.isLimit_of_requireName {name function : Text} {e : Error}
    (h : Wire.requireName name function = .error e) : e.IsLimit := by
  unfold Wire.requireName at h
  split at h
  · cases h
    exact Error.isLimit _ _
  · cases h

theorem SymbolTable.isLimit_of_intern {s : SymbolTable} {text : Text} {e : Error}
    (h : s.intern text = .error e) : e.IsLimit := by
  unfold SymbolTable.intern at h
  split at h
  · cases h
  · cases hname : Wire.requireName text s.owner with
    | error e' =>
      rw [hname] at h
      cases h
      exact Wire.isLimit_of_requireName hname
    | ok x =>
      rw [hname] at h
      change (if _ then _ else _) = _ at h
      split at h
      · cases h
        exact Error.isLimit _ _
      · cases h

namespace Emit

variable {α β : Type} {m m' : Emit α} {f : α → Emit β}

/-- A step that fails only because it is misused, or because of a limit. -/
def Faults (m : Emit α) : Prop :=
  ∀ s, Ends m s (fun _ _ => True) fun e _ => e.IsMisuse ∨ e.IsLimit

theorem Faults.pure (x : α) : Faults (Pure.pure x) := fun _ => trivial

theorem Faults.bind (hm : Faults m) (hf : ∀ x, Faults (f x)) : Faults (m >>= f) := fun s =>
  (hm s).next fun x t _ => hf x t

theorem Faults.map (g : α → β) (hm : Faults m) : Faults (g <$> m) := fun s => Ends.map (hm s)

theorem faults_get : Faults (get : Emit Assembly) := fun _ => trivial

theorem faults_update (g : Assembler → Assembler) : Faults (update g) := fun _ => trivial

theorem faults_fail (fault : TypingFault) : Faults (fail fault : Emit α) := fun _ =>
  .inl (.inl rfl)

theorem faults_refuse (fault : RoutineFault) : Faults (refuse fault : Emit α) := fun _ =>
  .inl (.inr rfl)

/-- A check that fails keeps what would come after it from happening. -/
theorem faults_fail_bind (fault : TypingFault) (f : α → Emit β) :
    Faults (fail fault >>= f) := fun _ => .inl (.inl rfl)

theorem faults_refuse_bind (fault : RoutineFault) (f : α → Emit β) :
    Faults (refuse fault >>= f) := fun _ => .inl (.inr rfl)

theorem faults_onStack (request : OnStack α) : Faults (onStack request) := by
  intro s
  unfold Ends onStack
  cases request s.assembler.stack with
  | ok found => trivial
  | error fault => exact .inl (.inl rfl)

theorem faults_push (t : ValueType) : Faults (push t) := faults_onStack _

theorem faults_pop (t : ValueType) : Faults (pop t) := (faults_onStack _).map _

theorem faults_intern (text : Text) : Faults (intern text) := by
  intro s
  unfold Ends intern
  cases hi : s.symbols.intern text with
  | ok found => trivial
  | error e => exact .inr (SymbolTable.isLimit_of_intern hi)

theorem faults_popAll (types : List ValueType) : Faults (types.forM pop) := by
  induction types with
  | nil => exact .pure PUnit.unit
  | cons t types ih => exact (faults_pop t).bind fun _ => ih

theorem faults_localType (slot : UInt16) : Faults (localType slot) := by
  refine faults_get.bind fun s => ?_
  split
  · exact .pure _
  · exact faults_fail _

theorem faults_labelState (label : Nat) : Faults (labelState label) := by
  refine faults_get.bind fun s => ?_
  split
  · exact .pure _
  · exact faults_refuse _

theorem faults_merge (label : Nat) (state : LabelState) : Faults (merge label state) := by
  refine faults_get.bind fun s => ?_
  dsimp only
  split
  · exact faults_update _
  · split
    · exact .pure _
    · exact faults_fail _

theorem faults_branch (label : Nat) (i : Instruction Nat) : Faults (branch label i) :=
  (faults_labelState label).bind fun _ => (faults_merge label _).bind fun _ =>
    (faults_update _).bind fun _ => faults_update _

/-- Writes an instruction and pushes a value. -/
theorem faults_produce (i : Instruction Nat) (t : ValueType) :
    Faults (do write i; push t) := (faults_update _).bind fun _ => faults_push t

/-- Takes a value, writes an instruction and pushes another one. -/
theorem faults_replace (i : Instruction Nat) (t u : ValueType) :
    Faults (do pop t; write i; push u) := (faults_pop t).bind fun _ => faults_produce i u

theorem faults_apply (e : Emission) : Faults (apply e) := by
  cases e with
  | pushNull | pushUndefined | pushBoolean | pushInt | pushLong | pushNumber =>
    exact faults_produce _ _
  | load type slot =>
    refine (faults_localType slot).bind fun declared => ?_
    split
    · exact faults_produce _ _
    · exact faults_fail_bind _ _
  | store type slot =>
    refine (faults_localType slot).bind fun declared => ?_
    split
    · exact (faults_pop _).bind fun _ => faults_update _
    · exact faults_fail_bind _ _
  | getStatic owner name type => exact (faults_intern _).bind fun _ => faults_produce _ _
  | putStatic owner name type =>
    exact (faults_pop _).bind fun _ => (faults_intern _).bind fun _ => faults_update _
  | arrayLoad =>
    refine (faults_onStack _).bind fun array => ?_
    split
    · exact faults_fail _
    · exact (faults_pop _).bind fun _ => faults_replace _ _ _
  | arrayStore =>
    refine (faults_onStack _).bind fun array => ?_
    split
    · exact faults_fail _
    · refine (faults_pop _).bind fun _ => (faults_pop _).bind fun _ => ?_
      exact (faults_pop _).bind fun _ => faults_update _
  | arrayLength =>
    refine (faults_onStack _).bind fun array => ?_
    split
    · exact ((faults_onStack _).map _).bind fun _ => faults_produce _ _
    · exact faults_fail_bind _ _
  | newArray type | checkCast type | neg type =>
    simp only [apply]
    split
    · exact faults_replace _ _ _
    · exact faults_fail_bind _ _
  | dup =>
    refine (faults_onStack _).bind fun top => ?_
    split
    · exact faults_produce _ _
    · exact faults_fail_bind _ _
  | dup2 =>
    refine (faults_onStack _).bind fun top => ?_
    split
    · exact faults_produce _ _
    · refine (faults_onStack _).bind fun below => ?_
      split
      · exact (faults_update _).bind fun _ => (faults_push _).bind fun _ => faults_push _
      · exact faults_fail_bind _ _
  | pop => exact ((faults_onStack _).map _).bind fun _ => faults_update _
  | pop2 =>
    refine (faults_onStack _).bind fun top => ?_
    split
    · exact ((faults_onStack _).map _).bind fun _ => faults_update _
    · refine ((faults_onStack _).map _).bind fun _ => ?_
      exact ((faults_onStack _).map _).bind fun _ => faults_update _
  | swap =>
    refine (faults_onStack _).bind fun top => (faults_onStack _).bind fun below => ?_
    exact (faults_update _).bind fun _ => (faults_push _).bind fun _ => faults_push _
  | arithmetic op type =>
    simp only [apply]
    split
    · exact (faults_pop _).bind fun _ => faults_replace _ _ _
    · exact faults_fail_bind _ _
  | convert source target =>
    simp only [apply]
    split
    · exact faults_fail_bind _ _
    · exact faults_replace _ _ _
  | invoke owner name signature =>
    refine (faults_popAll _).bind fun _ => (faults_intern _).bind fun _ => ?_
    refine (faults_update _).bind fun _ => ?_
    split
    · exact .pure _
    · exact faults_push _
  | newScope size => exact faults_replace _ _ _
  | jump label => exact (faults_branch _ _).bind fun _ => faults_update _
  | ifTrue label | ifFalse label => exact (faults_pop _).bind fun _ => faults_branch _ _
  | returnValue =>
    refine faults_get.bind fun s => ?_
    dsimp only
    split
    · exact faults_fail_bind _ _
    · exact (faults_pop _).bind fun _ => (faults_update _).bind fun _ => faults_update _
  | returnVoid =>
    refine faults_get.bind fun s => ?_
    dsimp only
    split
    · exact (faults_update _).bind fun _ => faults_update _
    · exact faults_fail_bind _ _

theorem faults_emission (e : Emission) : Faults (emission e) := by
  refine Faults.bind (faults_get.bind fun s => ?_) fun _ => faults_apply e
  split
  · refine faults_get.bind fun s => ?_
    split
    · exact .pure _
    · exact faults_fail _
  · exact faults_refuse_bind _ _

theorem faults_bind (label : Nat) : Faults (Emit.bind label) := by
  refine (faults_labelState label).bind fun state => ?_
  split
  · exact faults_refuse_bind _ _
  · refine faults_get.bind fun s => ?_
    split
    · exact (faults_merge label state).bind fun _ => faults_get.bind fun _ => faults_update _
    · refine (faults_onStack _).bind fun _ => (faults_update _).bind fun _ => ?_
      exact (faults_update _).bind fun _ => faults_get.bind fun _ => faults_update _

theorem faults_defineLocal (t : ValueType) : Faults (defineLocal t) := by
  intro s
  unfold Ends defineLocal Assembler.defineLocal
  by_cases hvoid : (t == .void) = true
  · simp only [hvoid, if_true]
    exact .inl (.inl rfl)
  · by_cases hroom : 65535 < s.assembler.locals.slots + t.width
    · simp only [hvoid, Bool.false_eq_true, if_false, hroom, if_true]
      exact .inr (Error.isLimit _ _)
    · simp only [hvoid, Bool.false_eq_true, if_false, hroom]

theorem faults_openCode : Faults openCode := faults_update _

theorem faults_close : Faults close := faults_update _

theorem faults_newLabel : Faults newLabel :=
  faults_get.bind fun _ => (faults_update _).bind fun _ => .pure _

/-- **Every request fails only because it is misused, or because of a limit.** -/
theorem faults_request (r : Request) : Faults (request r) := by
  cases r with
  | openCode => exact faults_openCode
  | close => exact faults_close
  | defineLocal type => exact (faults_defineLocal type).map _
  | newLabel => exact faults_newLabel.map _
  | bind label => exact faults_bind label
  | emission e => exact faults_emission e

end Emit

end Bytecode
