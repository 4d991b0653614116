import Mathlib
import Bytecode.Instruction
import Bytecode.Proofs.Wire.Parsing

/-!
# The layout of code

Instructions stand one after the other, so the offset of an instruction is the size of those before
it. Decoding the encoding of a list of instructions gives back the instructions, each at its offset.
Offsets are recorded in four bytes, and in code that is longer than that they start again from zero.

## Main definitions

* `Instruction.placedAt`: an instruction that stands at a position
* `Code.offset code k`: where the `k`-th instruction stands
* `Code.placed code`: the instructions at their offsets
* `Code.position code k`: where the `k`-th instruction of decoded code stands
* `Code.IsBoundary code o`: an instruction stands at offset `o`

## Main results

* `Read.parses_instruction`: an instruction is read back from its encoding
* `Code.decode_encode`: decoding undoes encoding
-/

namespace Bytecode

theorem Instruction.target?_map {α β : Type} (f : α → β) (i : Instruction α) :
    (i.map f).target? = i.target?.map f := by
  obtain ⟨op, operand⟩ := i
  cases op <;> rfl

/-- An instruction that stands at a position. -/
def Instruction.placedAt (i : Instruction UInt32) (pos : Nat) : Placed :=
  ⟨pos.toUInt32, i.size.toUInt32, i⟩

@[simp] theorem Instruction.instruction_placedAt (i : Instruction UInt32) (pos : Nat) :
    (i.placedAt pos).instruction = i := rfl

/-- The size of an instruction is found from where it starts and ends. -/
theorem Instruction.placedAt_eq (i : Instruction UInt32) {pos stop : Nat}
    (h : stop = pos + i.size) :
    i.placedAt pos = ⟨pos.toUInt32, stop.toUInt32 - pos.toUInt32, i⟩ := by
  have hsize : (pos + i.size).toUInt32 - pos.toUInt32 = i.size.toUInt32 := by
    rw [Nat.toUInt32_eq, Nat.toUInt32_eq, Nat.toUInt32_eq, UInt32.ofNat_add, UInt32.add_comm,
      UInt32.add_sub_cancel]
  rw [h, hsize, placedAt]

namespace Code

variable {α β : Type}

@[simp] theorem size_nil : size ([] : List (Instruction α)) = 0 := rfl

@[simp] theorem size_cons (i : Instruction α) (code : List (Instruction α)) :
    size (i :: code) = i.size + size code := rfl

@[simp] theorem size_append (code more : List (Instruction α)) :
    size (code ++ more) = size code + size more := by
  induction code with
  | nil => simp
  | cons i code ih => simp [ih, Nat.add_assoc]

@[simp] theorem size_reverse (code : List (Instruction α)) : size code.reverse = size code := by
  induction code with
  | nil => rfl
  | cons i code ih => simp [ih, Nat.add_comm]

@[simp] theorem size_map (f : α → β) (code : List (Instruction α)) :
    size (code.map (Instruction.map f)) = size code := by
  induction code with
  | nil => rfl
  | cons i code ih => simp [ih]

@[simp] theorem encode_nil : encode [] = [] := rfl

@[simp] theorem encode_cons (i : Instruction UInt32) (code : List (Instruction UInt32)) :
    encode (i :: code) = i.encode ++ encode code := rfl

@[simp] theorem length_encode (code : List (Instruction UInt32)) :
    (encode code).length = size code := by
  induction code with
  | nil => rfl
  | cons i code ih => simp [ih]

/-- Every instruction takes a byte. -/
theorem length_le_size (code : List (Instruction α)) : code.length ≤ size code := by
  induction code with
  | nil => rfl
  | cons i code ih =>
    have := i.size_pos
    rw [List.length_cons, size_cons]
    omega

/-- The offset of the `k`-th instruction: the size of those before it. -/
def offset (code : List (Instruction α)) (k : Nat) : Nat := size (code.take k)

@[simp] theorem offset_zero (code : List (Instruction α)) : offset code 0 = 0 := rfl

@[simp] theorem offset_length (code : List (Instruction α)) :
    offset code code.length = size code := by
  rw [offset, List.take_length]

theorem offset_append {code more : List (Instruction α)} {k : Nat} (h : k ≤ code.length) :
    offset (code ++ more) k = offset code k := by
  rw [offset, List.take_append_of_le_length h, offset]

@[simp] theorem offset_map (f : α → β) (code : List (Instruction α)) (k : Nat) :
    offset (code.map (Instruction.map f)) k = offset code k := by
  rw [offset, ← List.map_take, size_map, offset]

/-- The next instruction stands right after this one. -/
theorem offset_succ {code : List (Instruction α)} {k : Nat} {i : Instruction α}
    (h : code[k]? = some i) : offset code (k + 1) = offset code k + i.size := by
  rw [offset, List.take_add_one, h, size_append, Option.toList_some, size_cons, size_nil, offset]
  rfl

theorem offset_lt_size {code : List (Instruction α)} {k : Nat} (h : k < code.length) :
    offset code k < size code := by
  have hsplit : size code = offset code k + size (code.drop k) := by
    rw [offset, ← size_append, List.take_append_drop]
  have hpos := Instruction.size_pos code[k]
  rw [List.drop_eq_getElem_cons h, size_cons] at hsplit
  omega

theorem offset_le_size (code : List (Instruction α)) (k : Nat) : offset code k ≤ size code := by
  rcases Nat.lt_or_ge k code.length with h | h
  · exact (offset_lt_size h).le
  · rw [offset, List.take_of_length_le h]

/-- The offsets of code that is not too long fit in four bytes. -/
theorem toNat_offset {code : List (Instruction α)} {k : Nat} (hk : k < code.length)
    (hsize : size code ≤ 4294967296) : (offset code k).toUInt32.toNat = offset code k := by
  rw [Nat.toUInt32_eq, UInt32.toNat_ofNat_of_lt' ((offset_lt_size hk).trans_le hsize)]

/-- An instruction stands at offset `o`. -/
def IsBoundary (code : List (Instruction α)) (o : Nat) : Prop :=
  ∃ k < code.length, offset code k = o

theorem IsBoundary.append {code more : List (Instruction α)} {o : Nat} (h : IsBoundary code o) :
    IsBoundary (code ++ more) o := by
  obtain ⟨k, hk, rfl⟩ := h
  exact ⟨k, by simp; omega, offset_append hk.le⟩

theorem IsBoundary.lt_size {code : List (Instruction α)} {o : Nat} (h : IsBoundary code o) :
    o < size code := by
  obtain ⟨k, hk, rfl⟩ := h
  exact offset_lt_size hk

/-- The end of code is a boundary once one more instruction is written. -/
theorem isBoundary_size_concat (code : List (Instruction α)) (i : Instruction α) :
    IsBoundary (code ++ [i]) (size code) :=
  ⟨code.length, by simp, by rw [offset_append le_rfl, offset_length]⟩

/-- The instructions of a list, the first one at `start`. -/
def placedFrom : (start : Nat) → List (Instruction UInt32) → List Placed
  | _, [] => []
  | start, i :: rest => i.placedAt start :: placedFrom (start + i.size) rest

/-- The instructions at their offsets. -/
def placed (code : List (Instruction UInt32)) : List Placed := placedFrom 0 code

@[simp] theorem length_placedFrom (start : Nat) (code : List (Instruction UInt32)) :
    (placedFrom start code).length = code.length := by
  induction code generalizing start with
  | nil => rfl
  | cons i code ih => simp [placedFrom, ih]

theorem map_instruction_placedFrom (start : Nat) (code : List (Instruction UInt32)) :
    (placedFrom start code).map Placed.instruction = code := by
  induction code generalizing start with
  | nil => rfl
  | cons i code ih => rw [placedFrom, List.map_cons, ih, Instruction.placedAt]

theorem getElem?_placedFrom (start : Nat) (code : List (Instruction UInt32)) (k : Nat) :
    (placedFrom start code)[k]? = code[k]?.map fun i => i.placedAt (start + offset code k) := by
  induction code generalizing start k with
  | nil => simp [placedFrom]
  | cons i code ih =>
    cases k with
    | zero => simp [placedFrom]
    | succ k =>
      simp only [placedFrom, List.getElem?_cons_succ, ih, offset, List.take_succ_cons, size_cons,
        Nat.add_assoc]

/-- Where the `k`-th instruction of decoded code stands: behind the bytes of those before it. -/
def position (code : List Placed) (k : Nat) : Nat := offset (code.map Placed.instruction) k

@[simp] theorem position_placed (code : List (Instruction UInt32)) (k : Nat) :
    position (placed code) k = offset code k := by
  rw [position, placed, map_instruction_placedFrom]

/-- The `k`-th instruction stands at the `k`-th offset. -/
theorem getElem?_placed (code : List (Instruction UInt32)) (k : Nat) :
    (placed code)[k]? = code[k]?.map fun i => i.placedAt (offset code k) := by
  simpa [placed] using getElem?_placedFrom 0 code k

end Code

namespace Read

variable {pos : Nat} {rest : Bytes}

theorem parses_type (offset : UInt32) (t : ValueType) :
    Parses (type offset) pos (Wire.type t) rest t := by
  refine Parses.bind_pure (parses_u8 t.toByte) ?_
  rw [ValueType.ofByte?_toByte]

theorem parses_operand (offset : UInt32) :
    ∀ (kind : OperandKind) (x : Operand UInt32 kind),
      Parses (operand offset kind) pos (Operand.encode kind x) rest x
  | .none, () => Parses.pure
  | .type, t => parses_type offset t
  | .types, (a, b) =>
    Parses.bind (parses_type offset a) (Parses.bind_pure (parses_type offset b) rfl)
  | .slot, (t, slot) => Parses.bind (parses_type offset t) (Parses.bind_pure (parses_u16 slot) rfl)
  | .int32, n => parses_i32 n
  | .int64, n => parses_i64 n
  | .number, x => parses_number x
  | .symbol, i => parses_u16 i
  | .size, n => parses_u16 n
  | .target, t => parses_u32 t

/-- An instruction is read back from its encoding, at the offset of its first byte. -/
theorem parses_instruction (i : Instruction UInt32) :
    Parses instruction pos i.encode rest (i.placedAt pos) := by
  let start := pos + (Wire.u8 i.op.toByte).length
  have hoperand : Parses (operand pos.toUInt32 i.op.operands) start i.operand.encode ([] ++ rest)
      i.operand := parses_operand pos.toUInt32 i.op.operands i.operand
  have hend : start + i.operand.encode.length = pos + i.size := by
    rw [Operand.length_encode, Nat.add_assoc]
    rfl
  refine Parses.get ?_
  refine Parses.bind (parses_u8 i.op.toByte) ?_
  rw [Opcode.ofByte?_toByte]
  rw [← List.append_nil i.operand.encode]
  refine Parses.bind hoperand (Parses.get ?_)
  rw [i.placedAt_eq hend]
  exact Parses.pure

/-- Instructions are read back up to the end of the input, given fuel for each of them. -/
theorem parses_instructionsFrom {fuel : Nat} {code : List (Instruction UInt32)}
    (h : code.length ≤ fuel) (done : List Placed) :
    Parses (instructionsFrom fuel done) pos (Code.encode code) []
      (done.reverse ++ Code.placedFrom pos code) := by
  -- each instruction uses up one unit of fuel and moves the position on by its size
  induction code generalizing fuel pos done with
  | nil =>
    cases fuel with
    | zero => simpa [instructionsFrom, Code.placedFrom] using Parses.pure
    | succ fuel =>
      refine Parses.get ?_
      simpa [Code.placedFrom] using Parses.pure
  | cons i code ih =>
    obtain ⟨fuel, rfl⟩ : ∃ n, fuel = n + 1 := ⟨fuel - 1, by simp at h; omega⟩
    have hend : (Reader.atOffset pos (Code.encode (i :: code) ++ [])).atEnd = false := by
      simp [Instruction.encode, Wire.u8, Wire.digits]
    refine Parses.get ?_
    simp only [hend, Bool.false_eq_true, if_false]
    rw [Code.encode_cons]
    refine Parses.bind (parses_instruction i) ?_
    simpa [Code.placedFrom] using ih (by simpa using h) (i.placedAt pos :: done)

theorem Parses.run {α : Type} {read : Read α} {bytes : Bytes} {x : α}
    (h : Parses read 0 bytes [] x) : Read.run read bytes = .ok x := by
  have hr : read (.ofBytes bytes) = .ok x (.atOffset bytes.length []) := by
    simpa [Parses, Reader.ofBytes_eq_atOffset] using h
  rw [Read.run, hr]

end Read

/-- **Decoding undoes encoding**: it gives the instructions, each at its offset. -/
theorem Code.decode_encode (code : List (Instruction UInt32)) :
    decode (encode code) = .ok (placed code) := by
  -- an instruction takes at least one byte, so there is fuel for all of them
  have hfuel : code.length ≤ (encode code).length := by
    rw [length_encode]
    exact length_le_size code
  have hread : (Read.instructionsFrom (encode code).length []).Parses 0 (encode code) []
      (placed code) := Read.parses_instructionsFrom hfuel []
  exact hread.run

end Bytecode
