import Mathlib
import Bytecode.Proofs.Image.Limits
import Bytecode.Proofs.Image.Verification
import Bytecode.Proofs.Instruction.Tiling

/-!
# Control in verified code

The verifier looks at each instruction once, in the order of the code, and does not follow control.
That is enough: the targets of jumps are starts of instructions, the code is a tiling, and its last
instruction is terminal, so no path of any length leaves the instructions that were looked at. The
bytes may come from anywhere; all that is known of them is that they were accepted.

## Main definitions

* `Code.Flows code`: control goes from one offset to another in one step
* `Instruction.Confined`: what an instruction refers to is there

## Main results

* `Image.exists_of_verifyRoutine`: what the verifier has found out about a routine it accepted
* `Code.Flows.stays`: one step of control leads from an instruction to an instruction
* `Image.verify_confines`: on every path of control each instruction finds what it refers to
-/

namespace Bytecode

/-! ## Instructions that were looked at -/

/-- The local that an instruction reads or writes, and the type at which it does. -/
def Instruction.local? {α : Type} : Instruction α → Option (ValueType × UInt16)
  | ⟨.load, x⟩ => some x
  | ⟨.store, x⟩ => some x
  | _ => none

/-- What an instruction refers to is there: its slots are below `maxLocals`, its symbol is one of
`symbolCount`, and a return agrees with the type `result`. -/
structure Instruction.Confined (i : Instruction UInt32) (maxLocals symbolCount : Nat)
    (result : ValueType) : Prop where
  slots : ∀ t slot, i.local? = some (t, slot) →
    t ≠ .void ∧ ∀ k < t.width, slot.toNat + k < maxLocals
  symbol : ∀ n, i.symbol? = some n → n.toNat < symbolCount
  returnValue : ∀ t : ValueType, i = ⟨.returnValue, t⟩ → t = result ∧ result ≠ .void
  returnVoid : i.op = .returnVoid → result = .void

namespace CodeBounds

variable {b : CodeBounds} {i : Instruction UInt32}

theorem of_demand_eq_ok {holds : Bool} {fault : VerifyFault} (h : demand holds fault = .ok ()) :
    holds = true := by
  by_contra hfalse
  rw [demand, if_neg hfalse] at h
  cases h

theorem of_checkSlot_eq_ok {t : ValueType} {slot : UInt16} (h : b.checkSlot t slot = .ok ()) :
    t ≠ .void ∧ slot.toNat + t.width ≤ b.maxLocals := by
  obtain ⟨⟨⟩, hvoid, h⟩ := exists_of_except_bind h
  exact ⟨by simpa using of_demand_eq_ok hvoid, by simpa using of_demand_eq_ok h⟩

/-- The slots of an accepted instruction are there. -/
theorem slots_of_check (h : b.check i = .ok ()) {t : ValueType} {slot : UInt16}
    (hlocal : i.local? = some (t, slot)) :
    t ≠ .void ∧ ∀ k < t.width, slot.toNat + k < b.maxLocals := by
  have hslot : b.checkSlot t slot = .ok () := by
    obtain ⟨op, x⟩ := i
    cases op with
    | load =>
      cases hlocal
      exact h
    | store =>
      cases hlocal
      exact h
    | _ => cases hlocal
  obtain ⟨hvoid, hroom⟩ := of_checkSlot_eq_ok hslot
  exact ⟨hvoid, fun k hk => by omega⟩

/-- The symbol of an accepted instruction is in the table. -/
theorem symbol_of_check (h : b.check i = .ok ()) {n : UInt16} (hsymbol : i.symbol? = some n) :
    n.toNat < b.symbolCount := by
  have hcheck : b.checkSymbol n = .ok () := by
    obtain ⟨op, x⟩ := i
    cases op with
    | getStatic | putStatic | invoke =>
      cases hsymbol
      exact h
    | _ => cases hsymbol
  simpa using of_demand_eq_ok hcheck

/-- The target of an accepted instruction is the start of an instruction. -/
theorem target_of_check (h : b.check i = .ok ()) {o : UInt32} (htarget : i.target? = some o) :
    b.boundaries.contains o = true := by
  have hcheck : b.checkTarget o = .ok () := by
    obtain ⟨op, x⟩ := i
    cases op with
    | jump | ifTrue | ifFalse =>
      cases htarget
      exact h
    | _ => cases htarget
  exact of_demand_eq_ok hcheck

/-- **An accepted instruction is confined** to what the routine has. -/
theorem confined_of_check (h : b.check i = .ok ()) :
    i.Confined b.maxLocals b.symbolCount b.result where
  slots t slot hlocal := slots_of_check h hlocal
  symbol n hsymbol := symbol_of_check h hsymbol
  returnValue := by
    rintro t rfl
    have hresult : (b.result != .void && t == b.result) = true := of_demand_eq_ok h
    simp only [Bool.and_eq_true, bne_iff_ne, beq_iff_eq] at hresult
    exact ⟨hresult.2, hresult.1⟩
  returnVoid := by
    obtain ⟨op, x⟩ := i
    rintro rfl
    simpa using of_demand_eq_ok h

end CodeBounds

/-! ## Routines that were accepted -/

namespace Image

theorem of_checkCode_eq_ok {identity : Text} {bounds : CodeBounds} {code : List Placed}
    (h : checkCode identity bounds code = .ok ()) :
    ∀ p ∈ code, bounds.check p.instruction = .ok () := by
  induction code with
  | nil => simp
  | cons p rest ih =>
    rw [checkCode] at h
    split at h
    · cases h
    · next hp =>
      intro q hq
      rcases List.mem_cons.mp hq with rfl | hq
      · exact hp
      · exact ih h q hq

/-- What the verifier has found out about a routine that it accepted. -/
theorem exists_of_verifyRoutine {symbolCount : Nat} {r : RoutineRecord}
    (h : verifyRoutine symbolCount r = .ok ()) :
    ∃ signature code last, Signature.ofDescriptor? r.descriptor = some signature ∧
      Code.decode r.code = .ok code ∧ code.getLast? = some last ∧
      last.instruction.op.isTerminal = true ∧
      ∀ p ∈ code, CodeBounds.check {
        maxLocals := r.maxLocals.toNat
        symbolCount
        result := signature.result
        boundaries := Std.HashSet.ofList (code.map Placed.offset) } p.instruction = .ok () := by
  unfold verifyRoutine at h
  dsimp only at h
  split at h
  · cases h
  · next signature hsignature =>
    split at h
    · cases h
    · split at h
      · cases h
      · obtain ⟨code, hdecode, h⟩ := exists_of_except_bind h
        obtain ⟨⟨⟩, hcheck, h⟩ := exists_of_except_bind h
        split at h
        · cases h
        · next last hlast =>
          split at h
          · next hterminal =>
            exact ⟨signature, code, last, hsignature, hdecode, hlast, hterminal,
              of_checkCode_eq_ok hcheck⟩
          · cases h

theorem of_checkRoutines_eq_ok {symbolCount : Nat} {seen : Std.HashSet Text}
    {routines : List RoutineRecord} (h : checkRoutines symbolCount seen routines = .ok ()) :
    ∀ r ∈ routines, verifyRoutine symbolCount r = .ok () := by
  induction routines generalizing seen with
  | nil => simp
  | cons r rest ih =>
    rw [checkRoutines] at h
    split at h
    · cases h
    · split at h
      · cases h
      · next hr =>
        intro q hq
        rcases List.mem_cons.mp hq with rfl | hq
        · exact hr
        · exact ih h q hq

/-- An accepted unit was decoded, and each of its routines was accepted. -/
theorem of_verify_eq_ok {bytes : Bytes} {u : Image} (h : verify bytes = .ok u) :
    decode bytes = .ok u ∧ ∀ r ∈ u.routines, verifyRoutine u.symbols.length r = .ok () := by
  obtain ⟨found, hdecode, h⟩ := exists_of_except_bind h
  obtain ⟨⟨⟩, hcheck, h⟩ := exists_of_except_bind h
  cases h
  obtain ⟨⟨⟩, -, hroutines⟩ := exists_of_except_bind hcheck
  exact ⟨hdecode, of_checkRoutines_eq_ok hroutines⟩

end Image

/-! ## Paths of control -/

namespace Code

/-- **One step of control**: to the instruction right after this one, unless this one is a jump or a
return, or to the target of this one. -/
inductive Flows (code : List Placed) : Nat → Nat → Prop
  | next {p : Placed} (hp : p ∈ code) (hjump : p.instruction.op ≠ .jump)
      (hreturn : p.instruction.op ≠ .returnValue) (hvoid : p.instruction.op ≠ .returnVoid) :
      Flows code p.offset.toNat (p.offset.toNat + p.instruction.size)
  | target {p : Placed} {o : UInt32} (hp : p ∈ code) (h : p.instruction.target? = some o) :
      Flows code p.offset.toNat o.toNat

variable {instructions : List (Instruction UInt32)} {o o' : Nat}

/-- Only jumps and returns are terminal. -/
theorem isTerminal_eq_false {op : Opcode} (hjump : op ≠ .jump) (hreturn : op ≠ .returnValue)
    (hvoid : op ≠ .returnVoid) : op.isTerminal = false := by
  cases op with
  | jump => exact absurd rfl hjump
  | returnValue => exact absurd rfl hreturn
  | returnVoid => exact absurd rfl hvoid
  | _ => rfl

/-- **A step of control leads to an instruction**, when jumps go to instructions and the last
instruction is terminal. -/
theorem Flows.stays {last : Placed} (hshort : size instructions ≤ 4294967296)
    (h : Flows (placed instructions) o o')
    (hlast : (placed instructions).getLast? = some last)
    (hterminal : last.instruction.op.isTerminal = true)
    (htargets : ∀ p ∈ placed instructions, ∀ t, p.instruction.target? = some t →
      ∃ q ∈ placed instructions, q.offset = t) :
    ∃ q ∈ placed instructions, q.offset.toNat = o' := by
  cases h with
  | @next p hp hjump hreturn hvoid =>
    rcases next_of_mem_placed hshort hp with hnext | hend
    · exact hnext
    · -- the last instruction is terminal, and this one is not
      obtain rfl : p = last := Option.some.inj (hend.symm.trans hlast)
      rw [isTerminal_eq_false hjump hreturn hvoid] at hterminal
      cases hterminal
  | target hp ht =>
    obtain ⟨q, hq, rfl⟩ := htargets _ hp _ ht
    exact ⟨q, hq, rfl⟩

/-- Control starts at an instruction and stays on instructions, however long it runs. -/
theorem exists_of_flows {last : Placed} (hshort : size instructions ≤ 4294967296)
    (h : Relation.ReflTransGen (Flows (placed instructions)) 0 o)
    (hlast : (placed instructions).getLast? = some last)
    (hterminal : last.instruction.op.isTerminal = true)
    (htargets : ∀ p ∈ placed instructions, ∀ t, p.instruction.target? = some t →
      ∃ q ∈ placed instructions, q.offset = t) :
    ∃ q ∈ placed instructions, q.offset.toNat = o := by
  induction h with
  | refl =>
    cases instructions with
    | nil => cases hlast
    | cons i rest => exact ⟨i.placedAt 0, List.mem_cons_self, rfl⟩
  | tail _ hstep _ => exact hstep.stays hshort hlast hterminal htargets

end Code

/-- **Verified code cannot run astray.** On every path of control through a routine of an accepted
unit, each offset is that of an instruction and lies inside the code and outside all operands, and
the instruction there finds its slots, its symbol and its result type. -/
theorem Image.verify_confines {bytes : Bytes} {u : Image} (h : verify bytes = .ok u)
    {r : RoutineRecord} (hr : r ∈ u.routines) :
    decode bytes = .ok u ∧ ∃ signature code,
      Signature.ofDescriptor? r.descriptor = some signature ∧ Code.decode r.code = .ok code ∧
      ∀ o, Relation.ReflTransGen (Code.Flows code) 0 o →
        o < r.code.length ∧ (∃ p ∈ code, p.offset.toNat = o) ∧
        ∀ p ∈ code, ¬ (p.offset.toNat < o ∧ o < p.offset.toNat + p.instruction.size) ∧
          (p.offset.toNat = o →
            p.instruction.Confined r.maxLocals.toNat u.symbols.length signature.result) := by
  obtain ⟨hdecode, hroutines⟩ := of_verify_eq_ok h
  obtain ⟨signature, code, last, hsignature, hcode, hlast, hterminal, hcheck⟩ :=
    exists_of_verifyRoutine (hroutines r hr)
  refine ⟨hdecode, signature, code, hsignature, hcode, fun o ho => ?_⟩
  obtain ⟨instructions, rfl, hbytes⟩ := Code.decode_eq_ok_iff.mp hcode
  have htargets : ∀ p ∈ Code.placed instructions, ∀ t, p.instruction.target? = some t →
      ∃ q ∈ Code.placed instructions, q.offset = t := by
    intro p hp t ht
    have hboundary := CodeBounds.target_of_check (hcheck p hp) ht
    rw [Std.HashSet.contains_ofList, List.contains_iff_mem, List.mem_map] at hboundary
    exact hboundary
  -- a unit has four bytes for the length of the code
  have hshort : Code.size instructions ≤ 4294967296 := by
    rw [← Code.length_encode, ← hbytes]
    exact (length_code_of_decode hdecode r hr).le
  obtain ⟨q, hq, rfl⟩ := Code.exists_of_flows hshort ho hlast hterminal htargets
  refine ⟨?_, ⟨q, hq, rfl⟩, fun p hp => ⟨?_, fun _ => ?_⟩⟩
  · rw [hbytes, Code.length_encode]
    exact Code.offset_lt_of_mem_placed hshort hq
  · exact Code.notMem_operands hshort hq hp
  · exact CodeBounds.confined_of_check (hcheck p hp)

/-- A loop that calls a routine, and then returns its parameter. -/
def loopCode : List (Instruction UInt32) :=
  [⟨.pushTrue, ()⟩, ⟨.ifFalse, (14 : UInt32)⟩, ⟨.invoke, (0 : UInt16)⟩, ⟨.jump, (0 : UInt32)⟩,
    ⟨.load, (ValueType.int, (0 : UInt16))⟩, ⟨.returnValue, ValueType.int⟩]

def loopRoutine : RoutineRecord where
  flags := Flags.ofList [.isStatic]
  name := "loop"
  descriptor := "(I)I"
  maxStack := 1
  maxLocals := 1
  code := Code.encode loopCode

def loopImage : Image where
  name := "unit"
  source := "source"
  symbols := ["unit.tick:()V"]
  routines := [loopRoutine]

theorem verifyRoutine_loopRoutine :
    Image.verifyRoutine loopImage.symbols.length loopRoutine = .ok () := by
  have hsignature : Signature.ofDescriptor? loopRoutine.descriptor =
      some { result := .int, params := [.int] } := by decide
  have hlast : (Code.placed loopCode).getLast? = some ⟨18, 2, ⟨.returnValue, ValueType.int⟩⟩ := rfl
  refine Image.verifyRoutine_eq_ok hsignature (by decide) (Code.decode_encode loopCode) hlast rfl ?_
  -- the targets are 14 and 0, and an instruction starts at both of them
  intro p hp
  simp only [Code.placed, Code.placedFrom, loopCode, List.mem_cons, List.not_mem_nil,
    or_false] at hp
  rcases hp with rfl | rfl | rfl | rfl | rfl | rfl
  · rfl
  · refine CodeBounds.demand_eq_ok ?_
    rw [Std.HashSet.contains_ofList]
    decide
  · rfl
  · refine CodeBounds.demand_eq_ok ?_
    rw [Std.HashSet.contains_ofList]
    decide
  · rfl
  · rfl

theorem exists_verify_loopImage : ∃ bytes, Image.verify bytes = .ok loopImage := by
  obtain ⟨bytes, hbytes⟩ : Succeeds loopImage.encode :=
    (Image.succeeds_encode_iff loopImage).mpr (by decide)
  have hdecode : Image.decode bytes = .ok loopImage :=
    Image.decode_encode hbytes rfl (by decide) (by simp [loopImage]) (by decide)
  have hcheck : loopImage.check = .ok () := by
    refine Image.check_eq_ok (by decide) (by decide) fun r hr => ?_
    obtain rfl : r = loopRoutine := by simpa [loopImage] using hr
    exact verifyRoutine_loopRoutine
  refine ⟨bytes, ?_⟩
  rw [Image.verify, hdecode]
  change (loopImage.check >>= fun _ => _) = _
  rw [hcheck]
  rfl

/-- Control comes to the last instruction past the loop. -/
theorem flows_loopCode : Relation.ReflTransGen (Code.Flows (Code.placed loopCode)) 0 18 := by
  have hmem : ∀ k p, (Code.placed loopCode)[k]? = some p → p ∈ Code.placed loopCode :=
    fun _ _ h => List.mem_of_getElem? h
  have hpush : Code.Flows (Code.placed loopCode) 0 1 :=
    .next (hmem 0 _ rfl) (by decide) (by decide) (by decide)
  have hbranch : Code.Flows (Code.placed loopCode) 1 14 := .target (hmem 1 _ rfl) rfl
  have hload : Code.Flows (Code.placed loopCode) 14 18 :=
    .next (hmem 4 _ rfl) (by decide) (by decide) (by decide)
  exact ((Relation.ReflTransGen.single hpush).tail hbranch).tail hload

theorem Image.loopImage_confined : ∃ bytes signature code,
    verify bytes = .ok loopImage ∧ loopRoutine ∈ loopImage.routines ∧
      Signature.ofDescriptor? loopRoutine.descriptor = some signature ∧
      Code.decode loopRoutine.code = .ok code ∧ 18 < loopRoutine.code.length ∧
      ∃ p ∈ code, p.offset.toNat = 18 ∧ p.instruction.Confined 1 1 signature.result := by
  obtain ⟨bytes, hbytes⟩ := exists_verify_loopImage
  have hmem : loopRoutine ∈ loopImage.routines := List.mem_cons_self
  obtain ⟨-, signature, code, hsignature, hcode, hpaths⟩ := Image.verify_confines hbytes hmem
  obtain rfl : Code.placed loopCode = code :=
    Except.ok.inj ((Code.decode_encode loopCode).symm.trans hcode)
  obtain ⟨hlt, ⟨p, hp, hoffset⟩, hconfined⟩ := hpaths 18 flows_loopCode
  exact ⟨bytes, signature, Code.placed loopCode, hbytes, hmem, hsignature, hcode, hlt, p, hp,
    hoffset, (hconfined p hp).2 hoffset⟩

end Bytecode
