import Mathlib
import Bytecode.Locals
import Bytecode.Proofs.Instruction.Layout

/-!
# Typing of code

The typing rules of the stack machine, said without reference to how code is assembled. A shape is
the list of types on the stack, top first. Code is well typed when a shape can be given to every
position such that each instruction finds what it takes and leaves the shape of wherever control may
go next.

## Main definitions

* `Locals.Extends`: more locals, with the same types for those there were
* `Locals.Whole`: no local is cut off at the end
* `MemberType`: the type of what a symbol refers to
* `HasEffect locals result member i s t`: instruction `i` takes a stack of shape `s` to shape `t`
* `WellTyped`: decoded code with a shape for each position

## Main results

* `HasEffect.of_extends`: an effect does not depend on later locals
* `HasEffect.noVoid`: no instruction leaves a void value
* `HasEffect.map`: an effect does not depend on how targets are written
-/

namespace Bytecode

/-! ## Types that are not void -/

namespace ValueType

variable {x t c : ValueType}

theorem ne_void_of_isAssignable (h : x.isAssignable t = true) (hx : x ≠ .void) : t ≠ .void := by
  rintro rfl
  simp [isAssignable, hx] at h

theorem source_ne_void_of_isAssignable (h : x.isAssignable t = true) (ht : t ≠ .void) :
    x ≠ .void := by
  rintro rfl
  cases t <;> first | exact ht rfl | cases h

theorem isArray_of_component? (h : t.component? = some c) : t.isArray = true := by
  cases t <;> first | rfl | cases h

theorem ne_void_of_component? (h : t.component? = some c) : c ≠ .void := by
  rintro rfl
  cases t <;> cases h

theorem ne_void_of_isArray (h : t.isArray = true) : t ≠ .void := by
  rintro rfl
  cases h

theorem ne_void_of_isReference (h : t.isReference = true) : t ≠ .void := by
  rintro rfl
  cases h

theorem ne_void_of_isNumeric (h : t.isNumeric = true) : t ≠ .void := by
  rintro rfl
  cases h

/-- A value takes as many slots as the type at which it is used. -/
theorem width_of_isAssignable (h : x.isAssignable t = true) : x.width = t.width := by
  cases x <;> cases t <;> first | rfl | cases h

end ValueType

theorem void_notMem_cons {t : ValueType} {types : List ValueType} (ht : t ≠ .void)
    (htypes : .void ∉ types) : .void ∉ t :: types :=
  List.not_mem_cons_of_ne_of_not_mem ht.symm htypes

/-! ## Locals -/

namespace Locals

theorem getElem?_toList {l : Locals} {slot : Nat} (h : slot < l.slots) :
    l.newest[l.slots - 1 - slot]? = l.toList[slot]? := by
  have hlength : slot < l.newest.length := l.slots_eq ▸ h
  rw [toList, List.getElem?_reverse hlength, l.slots_eq]

theorem length_toList (l : Locals) : l.toList.length = l.slots := by
  rw [toList, List.length_reverse, l.slots_eq]

/-- A local starts at a slot exactly when its type stands there; halves of wide values do not
count. -/
theorem type?_eq_some {l : Locals} {slot : Nat} {t : ValueType} :
    l.type? slot = some t ↔ l.toList[slot]? = some t ∧ t ≠ .void := by
  unfold type?
  split
  · next h =>
    rw [getElem?_toList h]
    split
    · next hvoid => simp [hvoid, eq_comm]
    · next hother =>
      refine ⟨fun ht => ⟨ht, ?_⟩, And.left⟩
      rintro rfl
      exact hother ht
  · next h =>
    have hnone : l.toList[slot]? = none :=
      List.getElem?_eq_none (by rw [length_toList]; exact Nat.le_of_not_lt h)
    simp [hnone]

theorem type?_ne_void {l : Locals} {slot : Nat} {t : ValueType} (h : l.type? slot = some t) :
    t ≠ .void := (type?_eq_some.mp h).2

/-- Every local of `l` is a local of `m`, in the same slots. -/
def Extends (m l : Locals) : Prop := l.toList <+: m.toList

theorem Extends.refl (l : Locals) : l.Extends l := List.prefix_rfl

theorem extends_define (l : Locals) (t : ValueType) : (l.define t).Extends l := by
  rw [Extends, toList_define]
  exact List.prefix_append _ _

theorem Extends.type? {m l : Locals} {slot : Nat} {t : ValueType} (h : m.Extends l)
    (ht : l.type? slot = some t) : m.type? slot = some t := by
  rw [type?_eq_some] at ht ⊢
  obtain ⟨more, hmore⟩ := h
  obtain ⟨hslot, -⟩ := List.getElem?_eq_some_iff.mp ht.1
  rw [← hmore, List.getElem?_append_left hslot]
  exact ht

/-- No local is cut off at the end: both halves of a wide value are there. -/
def Whole (l : Locals) : Prop := ∀ slot t, l.toList[slot]? = some t → slot + t.width ≤ l.slots

theorem Whole.empty : Whole {} := by
  intro slot t h
  cases h

theorem Whole.define {l : Locals} (h : l.Whole) (t : ValueType) : (l.define t).Whole := by
  intro slot u hu
  have hslots : (l.define t).slots = l.slots + (slotsFor t).length := rfl
  rw [toList_define, List.getElem?_append] at hu
  split at hu
  · have := h slot u hu
    omega
  · next hnew =>
    rw [length_toList] at hu hnew
    by_cases hwide : t.width = 2
    · have hu' : ([t, .void] : List ValueType)[slot - l.slots]? = some u := by
        simpa [slotsFor, hwide] using hu
      have hlength : (slotsFor t).length = 2 := by simp [slotsFor, hwide]
      rcases hk : slot - l.slots with _ | _ | k
      · rw [hk] at hu'
        cases hu'
        omega
      · -- the second half of a wide value stands as void, which has no width of its own
        rw [hk] at hu'
        cases hu'
        rw [ValueType.width]
        omega
      · rw [hk] at hu'
        cases hu'
    · have hu' : ([t] : List ValueType)[slot - l.slots]? = some u := by
        simpa [slotsFor, hwide] using hu
      have hlength : (slotsFor t).length = 1 := by simp [slotsFor, hwide]
      have hnarrow : t.width ≤ 1 := by cases t <;> simp_all [ValueType.width]
      rcases hk : slot - l.slots with _ | k
      · rw [hk] at hu'
        cases hu'
        omega
      · rw [hk] at hu'
        cases hu'

end Locals

/-- The type of what a symbol refers to. -/
inductive MemberType
  | field (type : ValueType)
  | routine (signature : Signature)

/-- What a call leaves on the stack. -/
def Signature.returned (signature : Signature) : List ValueType :=
  if signature.result = .void then [] else [signature.result]

/-- The given values, top first, may be passed to a routine. -/
def Signature.Accepts (signature : Signature) (args : List ValueType) : Prop :=
  List.Forall₂ (fun x t => x.isAssignable t = true) args signature.params.reverse

/-- **The typing rules.** An instruction of a routine that returns `result` takes a stack of one
shape to a stack of another. Types come from the operands, from the declared type of the local, or
from the member to which the symbol refers. -/
inductive HasEffect (locals : Locals) (result : ValueType) {Target : Type} :
    Option MemberType → Instruction Target → List ValueType → List ValueType → Prop
  | nop {s} : HasEffect locals result none ⟨.nop, ()⟩ s s
  | pushNull {s} : HasEffect locals result none ⟨.pushNull, ()⟩ s (.object :: s)
  | pushUndefined {s} : HasEffect locals result none ⟨.pushUndefined, ()⟩ s (.object :: s)
  | pushTrue {s} : HasEffect locals result none ⟨.pushTrue, ()⟩ s (.boolean :: s)
  | pushFalse {s} : HasEffect locals result none ⟨.pushFalse, ()⟩ s (.boolean :: s)
  | pushInt {s n} : HasEffect locals result none ⟨.pushInt, n⟩ s (.int :: s)
  | pushLong {s n} : HasEffect locals result none ⟨.pushLong, n⟩ s (.long :: s)
  | pushNumber {s x} : HasEffect locals result none ⟨.pushNumber, x⟩ s (.number :: s)
  | load {s t slot declared} (hlocal : locals.type? slot.toNat = some declared)
      (ht : declared.isAssignable t = true) :
      HasEffect locals result none ⟨.load, (t, slot)⟩ s (t :: s)
  | store {s x t slot declared} (hlocal : locals.type? slot.toNat = some declared)
      (ht : t.isAssignable declared = true) (hx : x.isAssignable t = true) :
      HasEffect locals result none ⟨.store, (t, slot)⟩ (x :: s) s
  | getStatic {s t symbol} (ht : t ≠ .void) :
      HasEffect locals result (some (.field t)) ⟨.getStatic, symbol⟩ s (t :: s)
  | putStatic {s x t symbol} (hx : x.isAssignable t = true) :
      HasEffect locals result (some (.field t)) ⟨.putStatic, symbol⟩ (x :: s) s
  | arrayLoad {s i a t c} (hc : t.component? = some c) (hi : i.isAssignable .int = true)
      (ha : a.isAssignable t = true) :
      HasEffect locals result none ⟨.arrayLoad, t⟩ (i :: a :: s) (c :: s)
  | arrayStore {s x i a t c} (hc : t.component? = some c) (hx : x.isAssignable c = true)
      (hi : i.isAssignable .int = true) (ha : a.isAssignable t = true) :
      HasEffect locals result none ⟨.arrayStore, t⟩ (x :: i :: a :: s) s
  | arrayLength {s a} (ha : a.isArray = true) :
      HasEffect locals result none ⟨.arrayLength, ()⟩ (a :: s) (.int :: s)
  | newArray {s i t} (ht : t.isArray = true) (hi : i.isAssignable .int = true) :
      HasEffect locals result none ⟨.newArray, t⟩ (i :: s) (t :: s)
  | checkCast {s x t} (ht : t.isReference = true) (hx : x.isAssignable .object = true) :
      HasEffect locals result none ⟨.checkCast, t⟩ (x :: s) (t :: s)
  | dup {s x} (hx : x.width = 1) : HasEffect locals result none ⟨.dup, ()⟩ (x :: s) (x :: x :: s)
  | dup2Wide {s x} (hx : x.width = 2) :
      HasEffect locals result none ⟨.dup2, ()⟩ (x :: s) (x :: x :: s)
  | dup2Pair {s x y} (hx : x.width = 1) (hy : y.width = 1) :
      HasEffect locals result none ⟨.dup2, ()⟩ (x :: y :: s) (x :: y :: x :: y :: s)
  | pop {s x} (hx : x.width = 1) : HasEffect locals result none ⟨.pop, ()⟩ (x :: s) s
  | pop2Wide {s x} (hx : x.width = 2) : HasEffect locals result none ⟨.pop2, ()⟩ (x :: s) s
  | pop2Pair {s x y} (hx : x.width = 1) (hy : y.width = 1) :
      HasEffect locals result none ⟨.pop2, ()⟩ (x :: y :: s) s
  | swap {s x y} (hx : x.width = 1) (hy : y.width = 1) :
      HasEffect locals result none ⟨.swap, ()⟩ (x :: y :: s) (y :: x :: s)
  | add {s x y t} (ht : t.isNumeric = true) (hx : x.isAssignable t = true)
      (hy : y.isAssignable t = true) :
      HasEffect locals result none ⟨.add, t⟩ (x :: y :: s) (t :: s)
  | sub {s x y t} (ht : t.isNumeric = true) (hx : x.isAssignable t = true)
      (hy : y.isAssignable t = true) :
      HasEffect locals result none ⟨.sub, t⟩ (x :: y :: s) (t :: s)
  | mul {s x y t} (ht : t.isNumeric = true) (hx : x.isAssignable t = true)
      (hy : y.isAssignable t = true) :
      HasEffect locals result none ⟨.mul, t⟩ (x :: y :: s) (t :: s)
  | div {s x y t} (ht : t.isNumeric = true) (hx : x.isAssignable t = true)
      (hy : y.isAssignable t = true) :
      HasEffect locals result none ⟨.div, t⟩ (x :: y :: s) (t :: s)
  | neg {s x t} (ht : t.isNumeric = true) (hx : x.isAssignable t = true) :
      HasEffect locals result none ⟨.neg, t⟩ (x :: s) (t :: s)
  | convert {s x t u} (ht : t.isNumeric = true) (hu : u.isNumeric = true) (hne : t ≠ u)
      (hx : x.isAssignable t = true) :
      HasEffect locals result none ⟨.convert, (t, u)⟩ (x :: s) (u :: s)
  | invoke {s args signature symbol} (hargs : signature.Accepts args) :
      HasEffect locals result (some (.routine signature)) ⟨.invoke, symbol⟩ (args ++ s)
        (signature.returned ++ s)
  | newScope {s x n} (hx : x.isAssignable .object = true) :
      HasEffect locals result none ⟨.newScope, n⟩ (x :: s) (.scope :: s)
  | jump {s target} : HasEffect locals result none ⟨.jump, target⟩ s s
  | ifTrue {s x target} (hx : x.isAssignable .boolean = true) :
      HasEffect locals result none ⟨.ifTrue, target⟩ (x :: s) s
  | ifFalse {s x target} (hx : x.isAssignable .boolean = true) :
      HasEffect locals result none ⟨.ifFalse, target⟩ (x :: s) s
  | returnValue {s x} (hresult : result ≠ .void) (hx : x.isAssignable result = true) :
      HasEffect locals result none ⟨.returnValue, result⟩ (x :: s) s
  | returnVoid {s} (hresult : result = .void) :
      HasEffect locals result none ⟨.returnVoid, ()⟩ s s

namespace HasEffect

variable {locals : Locals} {result : ValueType} {α : Type} {member : Option MemberType}
  {i : Instruction α} {s t : List ValueType}

/-- An effect does not depend on locals that are defined later. -/
theorem of_extends {more : Locals} (h : HasEffect locals result member i s t)
    (hmore : more.Extends locals) : HasEffect more result member i s t := by
  cases h with
  | load hlocal ht => exact .load (hmore.type? hlocal) ht
  | store hlocal ht hx => exact .store (hmore.type? hlocal) ht hx
  -- the other rules do not mention locals
  | _ => constructor <;> assumption

/-- An effect does not depend on how targets are written. -/
theorem map {β : Type} (f : α → β) (h : HasEffect locals result member i s t) :
    HasEffect locals result member (i.map f) s t := by
  cases h <;> constructor <;> assumption

/-- No instruction leaves a void value. -/
theorem noVoid (h : HasEffect locals result member i s t) (hs : .void ∉ s) : .void ∉ t := by
  cases h with
  | load hlocal ht =>
    exact void_notMem_cons (ValueType.ne_void_of_isAssignable ht (Locals.type?_ne_void hlocal)) hs
  | getStatic ht => exact void_notMem_cons ht hs
  | arrayLoad hc =>
    exact void_notMem_cons (ValueType.ne_void_of_component? hc) fun h => hs (by simp [h])
  | newArray ht =>
    exact void_notMem_cons (ValueType.ne_void_of_isArray ht) fun h => hs (by simp [h])
  | checkCast ht =>
    exact void_notMem_cons (ValueType.ne_void_of_isReference ht) fun h => hs (by simp [h])
  | add ht | sub ht | mul ht | div ht | neg ht =>
    exact void_notMem_cons (ValueType.ne_void_of_isNumeric ht) fun h => hs (by simp [h])
  | convert _ hu =>
    exact void_notMem_cons (ValueType.ne_void_of_isNumeric hu) fun h => hs (by simp [h])
  | @invoke _ _ signature =>
    have hreturned : .void ∉ signature.returned := by
      unfold Signature.returned
      split
      · exact List.not_mem_nil
      · next hresult => simpa using Ne.symm hresult
    simp_all
  | _ => simp_all

end HasEffect

/-- Decoded code with a shape for each position. The `k`-th instruction refers to the `k`-th of
`members`. Offsets and jump targets have four bytes, so they name the position of an instruction
exactly when the code has no more than `2 ^ 32` bytes, and up to a multiple of that otherwise. -/
structure WellTyped (locals : Locals) (result : ValueType) (members : List (Option MemberType))
    (bytes : Bytes) (code : List Placed) (shape : Nat → List ValueType) : Prop where
  decodes : Code.decode bytes = .ok code
  /-- Control starts with an empty stack. -/
  entry : shape 0 = []
  noVoid : ∀ k < code.length, .void ∉ shape (Code.position code k)
  /-- Every instruction finds what it takes, and leaves the shape of wherever control goes. -/
  step : ∀ k p, code[k]? = some p → ∃ member after, members[k]? = some member ∧
    HasEffect locals result member p.instruction (shape (Code.position code k)) after ∧
    (p.instruction.op.isTerminal = false →
      ∃ q, code[k + 1]? = some q ∧ shape (Code.position code (k + 1)) = after) ∧
    ∀ target, p.instruction.target? = some target → ∃ j q, code[j]? = some q ∧
      shape (Code.position code j) = after ∧ q.offset = target ∧
      (bytes.length ≤ 4294967296 → Code.position code j = target.toNat)

end Bytecode
