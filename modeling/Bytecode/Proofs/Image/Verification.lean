import Mathlib
import Bytecode.Proofs.Assembly.Linking
import Bytecode.Proofs.Assembly.Soundness
import Bytecode.Proofs.Descriptor
import Bytecode.UnitBuilder

/-!
# What verification accepts

Verification looks at finished code without knowing how it was made. It accepts an instruction that
has an effect on some stack, once its symbol and its target exist; so it accepts the record of every
routine whose assembler is well formed and whose locals hold its parameters.

## Main definitions

* `Routine.Sound`: what makes the record of a routine acceptable

## Main results

* `CodeBounds.check_of_hasEffect`: an instruction with an effect is accepted
* `Routine.Sound.verify`: the record of a sound routine is accepted
* `Image.check_eq_ok`: a unit of accepted routines is accepted
-/

namespace Bytecode

/-! ## Instructions -/

namespace CodeBounds

variable {b : CodeBounds} {locals : Locals}

theorem demand_eq_ok {holds : Bool} {fault : VerifyFault} (h : holds = true) :
    demand holds fault = .ok () := if_pos h

/-- A local stands below the number of slots. -/
theorem checkSlot_eq_ok {slot : UInt16} {t declared : ValueType} (hwhole : locals.Whole)
    (hslots : locals.slots ≤ b.maxLocals) (hlocal : locals.type? slot.toNat = some declared)
    (hwidth : declared.width = t.width) (ht : t ≠ .void) : b.checkSlot t slot = .ok () := by
  have hfits := hwhole slot.toNat declared (Locals.type?_eq_some.mp hlocal).1
  unfold checkSlot
  rw [demand_eq_ok (by simpa using ht)]
  refine demand_eq_ok ?_
  simp only [decide_eq_true_eq]
  omega

/-- **An instruction with an effect is accepted**, once its symbol and its target exist. -/
theorem check_of_hasEffect {member : Option MemberType} {i : Instruction UInt32}
    {before after : List ValueType} (h : HasEffect locals b.result member i before after)
    (hwhole : locals.Whole) (hslots : locals.slots ≤ b.maxLocals)
    (hsymbol : ∀ n, i.symbol? = some n → n.toNat < b.symbolCount)
    (htarget : ∀ o, i.target? = some o → b.boundaries.contains o = true) :
    b.check i = .ok () := by
  cases h with
  | load hlocal ht =>
    have hvoid := ValueType.ne_void_of_isAssignable ht (Locals.type?_ne_void hlocal)
    exact checkSlot_eq_ok hwhole hslots hlocal (ValueType.width_of_isAssignable ht) hvoid
  | store hlocal ht =>
    have hvoid := ValueType.source_ne_void_of_isAssignable ht (Locals.type?_ne_void hlocal)
    exact checkSlot_eq_ok hwhole hslots hlocal (ValueType.width_of_isAssignable ht).symm hvoid
  | getStatic | putStatic | invoke => exact demand_eq_ok (by simpa using hsymbol _ rfl)
  | jump | ifTrue | ifFalse => exact demand_eq_ok (htarget _ rfl)
  | arrayLoad hc | arrayStore hc => exact demand_eq_ok (ValueType.isArray_of_component? hc)
  | newArray ht | checkCast ht | add ht | sub ht | mul ht | div ht | neg ht =>
    exact demand_eq_ok ht
  | convert ht hu => exact demand_eq_ok (by simp [ht, hu])
  | returnValue hresult => exact demand_eq_ok (by simpa using hresult)
  | returnVoid hresult => exact demand_eq_ok (by simpa using hresult)
  | _ => rfl

end CodeBounds

/-! ## Routines -/

/-- A record can be made of code that is finished and within the limits of the format. -/
theorem Routine.record_eq_ok {r : Routine} {record : RoutineRecord} (h : r.record = .ok record) :
    ∃ code, r.assembler.finish = .ok code ∧ code.length ≤ 65535 ∧
      r.assembler.locals.slots ≤ 65535 ∧
      record = {
        flags := r.flags
        name := r.name
        descriptor := r.signature.descriptor
        maxStack := r.assembler.stack.maxDepth.toUInt16
        maxLocals := r.assembler.locals.slots.toUInt16
        code } := by
  obtain ⟨code, hcode, h⟩ := exists_of_except_bind h
  dsimp only at h
  split at h
  · cases h
  · next hlength =>
    split at h
    · cases h
    · split at h
      · cases h
      · next hslots =>
        cases h
        exact ⟨code, hcode, Nat.le_of_not_lt hlength, Nat.le_of_not_lt hslots, rfl⟩

theorem Image.checkCode_eq_ok {identity : Text} {bounds : CodeBounds} {code : List Placed}
    (h : ∀ p ∈ code, bounds.check p.instruction = .ok ()) :
    checkCode identity bounds code = .ok () := by
  induction code with
  | nil => rfl
  | cons p rest ih =>
    rw [checkCode, h p List.mem_cons_self]
    exact ih fun q hq => h q (List.mem_cons_of_mem p hq)

/-- What makes the record of a routine acceptable, in a unit with `symbolCount` symbols. -/
structure Routine.Sound (r : Routine) (symbolCount : Nat) : Prop where
  wellFormed : r.assembler.WellFormed
  linked : ∀ i ∈ r.assembler.newest, ∀ n, i.symbol? = some n → n.toNat < symbolCount
  result_eq : r.assembler.returnType = r.signature.result
  noVoid : .void ∉ r.signature.params
  /-- The locals start with the receiver and the parameters. -/
  room : r.signature.paramSlots + Image.receiverSlots r.flags ≤ r.assembler.locals.slots

/-- More symbols do no harm. -/
theorem Routine.Sound.mono {r : Routine} {n m : Nat} (h : r.Sound n) (hnm : n ≤ m) : r.Sound m :=
  { h with linked := fun i hi s hs => (h.linked i hi s hs).trans_le hnm }

/-- How far a routine has come, and which locals hold what, does not matter. -/
theorem Routine.Sound.frame {r : Routine} {n : Nat} (h : r.Sound n) (phase : Phase)
    (layout : Layout) : Sound { r with phase, layout } n :=
  ⟨h.wellFormed, h.linked, h.result_eq, h.noVoid, h.room⟩

namespace Assembler.WellFormed

variable {a : Assembler} {bytes : Bytes}

/-- The last instruction of finished code is terminal. -/
theorem exists_last (h : a.WellFormed) (hfinish : a.finish = .ok bytes) :
    ∃ p, (Code.placed a.resolved).getLast? = some p ∧ p.instruction.op.isTerminal = true := by
  obtain ⟨hdead, -, -⟩ := h.finish_eq_ok hfinish
  obtain ⟨i, rest, hnewest, hterminal⟩ := h.ended hdead
  have hlength : (Code.placed a.resolved).length - 1 = rest.reverse.length := by
    simp [Code.placed, resolved, instructions, hnewest]
  have hlast : a.instructions[rest.reverse.length]? = some i := by
    rw [instructions, hnewest, List.reverse_cons, List.getElem?_concat_length]
  refine ⟨(i.map a.offsetOf).placedAt (Code.offset a.instructions rest.reverse.length), ?_,
    hterminal⟩
  rw [List.getLast?_eq_getElem?, hlength, getElem?_placed_resolved, hlast, Option.map_some]

/-- Every instruction of finished code is within bounds. -/
theorem check_eq_ok (h : a.WellFormed) (hfinish : a.finish = .ok bytes) {symbolCount : Nat}
    (hlinked : ∀ i ∈ a.newest, ∀ n, i.symbol? = some n → n.toNat < symbolCount) {p : Placed}
    (hp : p ∈ Code.placed a.resolved) :
    CodeBounds.check {
      maxLocals := a.locals.slots
      symbolCount
      result := a.returnType
      boundaries := Std.HashSet.ofList ((Code.placed a.resolved).map Placed.offset) }
      p.instruction = .ok () := by
  obtain ⟨k, hk⟩ := List.mem_iff_getElem?.mp hp
  rw [getElem?_placed_resolved] at hk
  obtain ⟨i, hi, rfl⟩ := Option.map_eq_some_iff.mp hk
  have hmem : i ∈ a.newest := mem_instructions.mp (List.mem_of_getElem? hi)
  obtain ⟨member, before, after, heffect⟩ := h.typable i hmem
  refine CodeBounds.check_of_hasEffect (heffect.map a.offsetOf) h.whole le_rfl ?_ ?_
  · intro n hn
    rw [Instruction.instruction_placedAt, Instruction.symbol?_map] at hn
    exact hlinked i hmem n hn
  · -- the offset of a label is the start of an instruction
    intro o ho
    rw [Instruction.instruction_placedAt, Instruction.target?_map] at ho
    obtain ⟨label, hlabel, rfl⟩ := Option.map_eq_some_iff.mp ho
    obtain ⟨-, k', hk', -, -, hoffsetOf⟩ := h.exists_target hfinish hmem hlabel
    rw [hoffsetOf, Std.HashSet.contains_ofList]
    have hplaced := List.mem_of_getElem? (getElem?_placed_of_lt hk')
    exact List.contains_iff_mem.mpr (List.mem_map_of_mem hplaced)

end Assembler.WellFormed

/-- The conditions under which a record is accepted. -/
theorem Image.verifyRoutine_eq_ok {symbolCount : Nat} {r : RoutineRecord} {signature : Signature}
    {code : List Placed} {last : Placed}
    (hsignature : Signature.ofDescriptor? r.descriptor = some signature)
    (hroom : signature.paramSlots + receiverSlots r.flags ≤ r.maxLocals.toNat)
    (hdecode : Code.decode r.code = .ok code) (hlast : code.getLast? = some last)
    (hterminal : last.instruction.op.isTerminal = true)
    (hcheck : ∀ p ∈ code, CodeBounds.check {
      maxLocals := r.maxLocals.toNat
      symbolCount
      result := signature.result
      boundaries := Std.HashSet.ofList (code.map Placed.offset) } p.instruction = .ok ()) :
    verifyRoutine symbolCount r = .ok () := by
  -- code without bytes has no last instruction
  have hempty : r.code.isEmpty = false := by
    cases hcode : r.code with
    | cons b rest => rfl
    | nil =>
      rw [hcode] at hdecode
      cases hdecode
      cases hlast
  unfold verifyRoutine
  simp only [hsignature, Nat.not_lt.mpr hroom, hempty, hdecode, Bool.false_eq_true, if_false]
  change (checkCode _ _ code >>= fun _ => _) = _
  rw [checkCode_eq_ok hcheck]
  simp only [hlast, hterminal, if_true]
  rfl

/-- **The record of a sound routine is accepted.** -/
theorem Routine.Sound.verify {r : Routine} {record : RoutineRecord} {symbolCount : Nat}
    (h : r.Sound symbolCount) (hrecord : r.record = .ok record) :
    Image.verifyRoutine symbolCount record = .ok () := by
  obtain ⟨code, hfinish, -, hslots, rfl⟩ := Routine.record_eq_ok hrecord
  obtain ⟨last, hlast, hterminal⟩ := h.wellFormed.exists_last hfinish
  have hmaxLocals : r.assembler.locals.slots.toUInt16.toNat = r.assembler.locals.slots := by
    rw [Nat.toUInt16_eq, UInt16.toNat_ofNat_of_lt' (Nat.lt_succ_of_le hslots)]
  obtain ⟨-, rfl, -⟩ := h.wellFormed.finish_eq_ok hfinish
  refine Image.verifyRoutine_eq_ok (Signature.ofDescriptor?_descriptor h.noVoid) ?_
    (Code.decode_encode _) hlast hterminal ?_
  · rw [hmaxLocals]
    exact h.room
  · intro p hp
    have hcheck := h.wellFormed.check_eq_ok hfinish h.linked hp
    rwa [h.result_eq, ← hmaxLocals] at hcheck

/-! ## Units -/

namespace Image

/-- Names that are distinct are new as long as each one is added after it was seen. -/
theorem notMem_insert_of_distinct {α : Type} {key : α → Text} {seen : Std.HashSet Text} {x : α}
    {rest : List α} (hnew : ∀ y ∈ x :: rest, key y ∉ seen) (hx : key x ∉ rest.map key) :
    ∀ y ∈ rest, key y ∉ seen.insert (key x) := by
  intro y hy
  rw [Std.HashSet.mem_insert, not_or]
  refine ⟨fun heq => hx ?_, hnew y (List.mem_cons_of_mem x hy)⟩
  rw [beq_iff_eq.mp heq]
  exact List.mem_map_of_mem hy

theorem checkFields_eq_ok {seen : Std.HashSet Text} {fields : List Field}
    (hnew : ∀ f ∈ fields, f.name ∉ seen) (hnodup : (fields.map Field.name).Nodup) :
    checkFields seen fields = .ok () := by
  induction fields generalizing seen with
  | nil => rfl
  | cons f rest ih =>
    rw [List.map_cons, List.nodup_cons] at hnodup
    have hf : seen.contains f.name = false := by simpa using hnew f List.mem_cons_self
    rw [checkFields, hf]
    exact ih (notMem_insert_of_distinct hnew hnodup.1) hnodup.2

theorem checkRoutines_eq_ok {symbolCount : Nat} {seen : Std.HashSet Text}
    {routines : List RoutineRecord} (hnew : ∀ r ∈ routines, r.identity ∉ seen)
    (hnodup : (routines.map RoutineRecord.identity).Nodup)
    (hverify : ∀ r ∈ routines, verifyRoutine symbolCount r = .ok ()) :
    checkRoutines symbolCount seen routines = .ok () := by
  induction routines generalizing seen with
  | nil => rfl
  | cons r rest ih =>
    rw [List.map_cons, List.nodup_cons] at hnodup
    have hr : seen.contains r.identity = false := by simpa using hnew r List.mem_cons_self
    rw [checkRoutines, hr, hverify r List.mem_cons_self]
    refine ih (notMem_insert_of_distinct hnew hnodup.1) hnodup.2 fun q hq => ?_
    exact hverify q (List.mem_cons_of_mem r hq)

/-- A unit of accepted routines is accepted when its names are distinct. -/
theorem check_eq_ok {u : Image} (hfields : (u.fields.map Field.name).Nodup)
    (hroutines : (u.routines.map RoutineRecord.identity).Nodup)
    (hverify : ∀ r ∈ u.routines, verifyRoutine u.symbols.length r = .ok ()) :
    u.check = .ok () := by
  rw [check, checkFields_eq_ok (fun f _ => Std.HashSet.not_mem_empty) hfields]
  exact checkRoutines_eq_ok (fun r _ => Std.HashSet.not_mem_empty) hroutines hverify

end Image

end Bytecode
