import Mathlib
import Bytecode.Proofs.Instruction.Layout
import Bytecode.Proofs.Wire.Taking

/-!
# Decoded code is a tiling

Whatever bytes are decoded, the instructions found in them stand one after the other, from the first
byte to the last, and each of them fills its own bytes. So an offset inside the code either starts
exactly one instruction or lies among the operands of exactly one, if the code is not so long that
offsets repeat.

## Main results

* `Read.took_instruction`: a decoded instruction has taken its encoding
* `Code.decode_eq_ok_iff`: code that can be decoded is the encoding of its instructions
* `Code.notMem_operands`: no instruction starts among the operands of another
-/

namespace Bytecode

namespace Read

variable {r r' : Reader} {offset : UInt32}

theorem took_type {t : ValueType} (h : type offset r = .ok t r') : r.Took r' (Wire.type t) := by
  obtain ⟨raw, r₁, hraw, h⟩ := exists_of_bind_ok h
  cases ht : ValueType.ofByte? raw with
  | none =>
    rw [ht] at h
    cases h
  | some t' =>
    rw [ht] at h
    cases h
    rw [Wire.type, ValueType.toByte_of_ofByte? ht]
    exact took_u8 hraw

theorem took_operand {kind : OperandKind} {x : Operand UInt32 kind}
    (h : operand offset kind r = .ok x r') : r.Took r' (Operand.encode kind x) := by
  cases kind with
  | none =>
    cases h
    exact .refl r
  | type => exact took_type h
  | types =>
    obtain ⟨a, r₁, ha, h⟩ := exists_of_bind_ok h
    obtain ⟨b, r₂, hb, h⟩ := exists_of_bind_ok h
    cases h
    exact (took_type ha).trans (took_type hb)
  | slot =>
    obtain ⟨t, r₁, ht, h⟩ := exists_of_bind_ok h
    obtain ⟨slot, r₂, hslot, h⟩ := exists_of_bind_ok h
    cases h
    exact (took_type ht).trans (took_u16 hslot)
  | int32 => exact took_i32 h
  | int64 => exact took_i64 h
  | number => exact took_number h
  | symbol => exact took_u16 h
  | size => exact took_u16 h
  | target => exact took_u32 h

/-- A decoded instruction stands where it was read, and has taken its encoding. -/
theorem took_instruction {p : Placed} (h : instruction r = .ok p r') :
    p = p.instruction.placedAt r.pos ∧ r.Took r' p.instruction.encode := by
  obtain ⟨reader, r₀, hget, h⟩ := exists_of_bind_ok h
  cases hget
  obtain ⟨raw, r₁, hraw, h⟩ := exists_of_bind_ok h
  cases hop : Opcode.ofByte? raw with
  | none =>
    rw [hop] at h
    cases h
  | some op =>
    rw [hop] at h
    obtain ⟨x, r₂, hx, h⟩ := exists_of_bind_ok h
    obtain ⟨reader, r₃, hget, h⟩ := exists_of_bind_ok h
    cases hget
    cases h
    have htook : r.Took r' (Instruction.encode ⟨op, x⟩) := by
      rw [Instruction.encode, Opcode.toByte_of_ofByte? hop]
      exact (took_u8 hraw).trans (took_operand hx)
    refine ⟨(Instruction.placedAt_eq _ ?_).symm, htook⟩
    rw [htook.pos_eq, Instruction.length_encode]

/-- Reading instructions up to the end of the input takes all of it, given fuel for each byte. -/
theorem took_instructionsFrom {fuel : Nat} {done code : List Placed}
    (h : instructionsFrom fuel done r = .ok code r') (hfuel : r.rest.length ≤ fuel) :
    ∃ instructions, code = done.reverse ++ Code.placedFrom r.pos instructions ∧
      r.rest = Code.encode instructions := by
  -- each instruction takes a byte, so the rest of the input never outgrows the fuel
  induction fuel generalizing r done with
  | zero =>
    have hrest : r.rest = [] := List.eq_nil_of_length_eq_zero (Nat.le_zero.mp hfuel)
    cases h
    exact ⟨[], by simp [Code.placedFrom], hrest⟩
  | succ fuel ih =>
    obtain ⟨reader, r₀, hget, h⟩ := exists_of_bind_ok h
    cases hget
    by_cases hend : r.atEnd = true
    · have hrest : r.rest.length = 0 := by
        rw [← r.remaining_eq]
        exact beq_iff_eq.mp hend
      rw [if_pos hend] at h
      cases h
      exact ⟨[], by simp [Code.placedFrom], List.eq_nil_of_length_eq_zero hrest⟩
    · rw [if_neg hend] at h
      obtain ⟨p, r₁, hp, h⟩ := exists_of_bind_ok h
      obtain ⟨hplaced, htook⟩ := took_instruction hp
      have hlength : r₁.rest.length ≤ fuel := by
        have hsize := p.instruction.size_pos
        have hrest := congrArg List.length htook.rest_eq
        rw [List.length_append, Instruction.length_encode] at hrest
        omega
      obtain ⟨instructions, hcode, hrest⟩ := ih h hlength
      refine ⟨p.instruction :: instructions, ?_, ?_⟩
      · -- the next instruction is placed where this one ends
        rw [hcode, htook.pos_eq, Instruction.length_encode]
        simp only [List.reverse_cons, List.append_assoc, List.singleton_append, Code.placedFrom,
          ← hplaced]
      · rw [htook.rest_eq, hrest, Code.encode_cons]

end Read

namespace Code

/-- **Code that can be decoded is the encoding of its instructions**, each at its offset. -/
theorem decode_eq_ok_iff {bytes : Bytes} {code : List Placed} :
    decode bytes = .ok code ↔
      ∃ instructions, code = placed instructions ∧ bytes = encode instructions := by
  constructor
  · intro h
    unfold decode Read.run at h
    split at h
    · next found r hread =>
      cases h
      obtain ⟨instructions, hcode, hrest⟩ := Read.took_instructionsFrom hread le_rfl
      exact ⟨instructions, by simpa [placed] using hcode, hrest⟩
    · cases h
  · rintro ⟨instructions, rfl, rfl⟩
    exact decode_encode instructions

variable {instructions : List (Instruction UInt32)} {p q : Placed}

/-- An instruction of placed code, by its position. -/
theorem mem_placed : p ∈ placed instructions ↔
    ∃ (k : Nat) (i : Instruction UInt32), instructions[k]? = some i ∧
      p = i.placedAt (offset instructions k) := by
  rw [List.mem_iff_getElem?]
  constructor
  · rintro ⟨k, hk⟩
    rw [getElem?_placed] at hk
    obtain ⟨i, hi, rfl⟩ := Option.map_eq_some_iff.mp hk
    exact ⟨k, i, hi, rfl⟩
  · rintro ⟨k, i, hk, rfl⟩
    refine ⟨k, ?_⟩
    rw [getElem?_placed, hk, Option.map_some]

/-- Offsets grow with positions. -/
theorem offset_mono {α : Type} {code : List (Instruction α)} {j k : Nat} (h : j ≤ k) :
    offset code j ≤ offset code k := by
  induction k, h using Nat.le_induction with
  | base => exact le_rfl
  | succ k hk ih =>
    refine ih.trans ?_
    cases hi : code[k]? with
    | none =>
      have hlength : code.length ≤ k := List.getElem?_eq_none_iff.mp hi
      rw [offset, offset, List.take_of_length_le hlength, List.take_of_length_le (by omega)]
    | some i =>
      rw [offset_succ hi]
      exact Nat.le_add_right _ _

/-! ### Code that is not too long -/

section Short

variable (hshort : size instructions ≤ 4294967296)

include hshort

/-- The offset of an instruction is the size of those before it. -/
theorem exists_offset_of_mem_placed (hp : p ∈ placed instructions) :
    ∃ k, instructions[k]? = some p.instruction ∧ p.offset.toNat = offset instructions k := by
  obtain ⟨k, i, hk, rfl⟩ := mem_placed.mp hp
  exact ⟨k, hk, toNat_offset (List.getElem?_eq_some_iff.mp hk).1 hshort⟩

/-- The end of an instruction is the start of the next one, or the end of the code. -/
theorem next_of_mem_placed (hp : p ∈ placed instructions) :
    (∃ q ∈ placed instructions, q.offset.toNat = p.offset.toNat + p.instruction.size) ∨
      (placed instructions).getLast? = some p := by
  obtain ⟨k, i, hk, rfl⟩ := mem_placed.mp hp
  obtain ⟨hlt, -⟩ := List.getElem?_eq_some_iff.mp hk
  by_cases hnext : k + 1 < instructions.length
  · left
    refine ⟨instructions[k + 1].placedAt (offset instructions (k + 1)), mem_placed.mpr ?_, ?_⟩
    · exact ⟨k + 1, _, List.getElem?_eq_getElem hnext, rfl⟩
    · show (offset instructions (k + 1)).toUInt32.toNat =
        (offset instructions k).toUInt32.toNat + i.size
      rw [toNat_offset hnext hshort, toNat_offset hlt hshort, offset_succ hk]
  · right
    have hlast : (placed instructions).length - 1 = k := by
      rw [placed, length_placedFrom]
      omega
    rw [List.getLast?_eq_getElem?, hlast, getElem?_placed, hk, Option.map_some]

theorem offset_lt_of_mem_placed (hp : p ∈ placed instructions) :
    p.offset.toNat < size instructions := by
  obtain ⟨k, hk, hoffset⟩ := exists_offset_of_mem_placed hshort hp
  rw [hoffset]
  exact offset_lt_size (List.getElem?_eq_some_iff.mp hk).1

/-- No instruction starts among the operands of another. -/
theorem notMem_operands (hp : p ∈ placed instructions) (hq : q ∈ placed instructions) :
    ¬ (q.offset.toNat < p.offset.toNat ∧
      p.offset.toNat < q.offset.toNat + q.instruction.size) := by
  obtain ⟨k, hk, hoffset⟩ := exists_offset_of_mem_placed hshort hp
  obtain ⟨j, hj, hoffset'⟩ := exists_offset_of_mem_placed hshort hq
  rintro ⟨hafter, hbefore⟩
  rcases Nat.lt_or_ge j k with hjk | hkj
  · -- an instruction after `q` starts where `q` ends, or later
    have hmono : offset instructions (j + 1) ≤ offset instructions k := offset_mono hjk
    rw [offset_succ hj] at hmono
    omega
  · have hmono : offset instructions k ≤ offset instructions j := offset_mono hkj
    omega

end Short

end Code

end Bytecode
