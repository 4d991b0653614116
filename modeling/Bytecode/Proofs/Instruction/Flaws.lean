import Mathlib
import Bytecode.Proofs.Image.Resilience
import Bytecode.Proofs.Instruction.Tiling

/-!
# Code that cannot be decoded

An instruction stands at an offset unless something is wrong with the bytes there, and there are
three things that can be: the first byte is the byte of no operation, an operand that should be a
type is the byte of no type, or the code ends before the operands do. Everything else is an
instruction, since every word of the right size is the encoding of some operand. The width of the
operands, which is looked up by kind, and the bytes that are read for each kind are two accounts of
the same layout; here they are found to agree on all bytes.

Decoding goes from instruction to instruction and fails exactly at the first flaw it comes to.

## Main definitions

* `OperandKind.typeCount`: how many of the operands are types
* `Code.Flawed bytes pos`: what keeps an instruction from standing at an offset
* `Code.Reached bytes pos`: the offset is reached by going from instruction to instruction

## Main results

* `Operand.exists_encode`: bytes of the right size are operands, if the types among them are types
* `Code.exists_instruction_iff`: an instruction stands where there is no flaw
* `Code.flaw_or_tiling`: instructions go on to the end of the code or to a flaw
* `Code.decode_lossless`: what is decoded tiles the code, and when decoding fails
-/

namespace Bytecode

/-! ## Words that are operands -/

namespace Wire

variable {args : Bytes}

/-- Bytes are the digits of a number in their range. -/
theorem exists_digits {width : Nat} (h : args.length = width) :
    ∃ n < range width, digits width n = args := by
  subst h
  exact ⟨value args, value_lt args, digits_value args⟩

theorem exists_u16 (h : args.length = 2) : ∃ v, u16 v = args := by
  obtain ⟨n, hn, rfl⟩ := exists_digits h
  exact ⟨n.toUInt16, by rw [u16, Nat.toUInt16_eq, UInt16.toNat_ofNat_of_lt' hn]⟩

theorem exists_u32 (h : args.length = 4) : ∃ v, u32 v = args := by
  obtain ⟨n, hn, rfl⟩ := exists_digits h
  exact ⟨n.toUInt32, by rw [u32, Nat.toUInt32_eq, UInt32.toNat_ofNat_of_lt' hn]⟩

theorem exists_u64 (h : args.length = 8) : ∃ v, u64 v = args := by
  obtain ⟨n, hn, rfl⟩ := exists_digits h
  exact ⟨n.toUInt64, by rw [u64, Nat.toUInt64_eq, UInt64.toNat_ofNat_of_lt' hn]⟩

theorem type_eq (t : ValueType) : type t = [t.toByte] := u8_eq t.toByte

end Wire

theorem ValueType.toByte_lt (t : ValueType) : t.toByte < 14 := by
  cases t <;> decide

/-- The bytes below fourteen are those of the types. -/
theorem ValueType.exists_toByte {raw : UInt8} (h : raw < 14) : ∃ t : ValueType, t.toByte = raw := by
  have hall : ∀ n : Fin 14, ∃ t ∈ all, t.toByte.toNat = n := by decide
  obtain ⟨t, -, ht⟩ := hall ⟨raw.toNat, UInt8.lt_iff_toNat_lt.mp h⟩
  exact ⟨t, UInt8.toNat_inj.mp ht⟩

theorem Opcode.toByte_inj {op op' : Opcode} : op.toByte = op'.toByte ↔ op = op' := by
  refine ⟨fun h => ?_, congrArg toByte⟩
  have hsame := ofByte?_toByte op
  rw [h, ofByte?_toByte] at hsame
  exact (Option.some.inj hsame).symm

/-- How many of the operands are types; these come first. -/
def OperandKind.typeCount : OperandKind → Nat
  | type | slot => 1
  | types => 2
  | _ => 0

theorem OperandKind.width_le (kind : OperandKind) : kind.width ≤ 8 := by
  cases kind <;> decide

theorem OperandKind.typeCount_le_width (kind : OperandKind) : kind.typeCount ≤ kind.width := by
  cases kind <;> decide

namespace Operand

variable {kind : OperandKind}

/-- Operands that are types are written as bytes below fourteen. -/
theorem encode_lt {x : Operand UInt32 kind} {k : Nat} {raw : UInt8} (hk : k < kind.typeCount)
    (h : (encode kind x)[k]? = some raw) : raw < 14 := by
  cases kind with
  | type =>
    obtain rfl : k = 0 := Nat.lt_one_iff.mp hk
    have hcode : encode .type x = [ValueType.toByte x] := Wire.type_eq x
    rw [hcode] at h
    cases h
    exact ValueType.toByte_lt _
  | types =>
    obtain ⟨a, b⟩ := x
    rw [encode, Wire.type_eq, Wire.type_eq] at h
    have hk : k < 2 := hk
    obtain rfl | rfl : k = 0 ∨ k = 1 := by omega
    · cases h
      exact ValueType.toByte_lt a
    · cases h
      exact ValueType.toByte_lt b
  | slot =>
    obtain ⟨t, slot⟩ := x
    obtain rfl : k = 0 := Nat.lt_one_iff.mp hk
    rw [encode, Wire.type_eq] at h
    cases h
    exact ValueType.toByte_lt t
  | _ => cases hk

/-- **Bytes of the right size are operands**, if the types among them are types. -/
theorem exists_encode {args : Bytes} (hwidth : args.length = kind.width)
    (htypes : ∀ k < kind.typeCount, ∀ raw, args[k]? = some raw → raw < 14) :
    ∃ x, encode kind x = args := by
  cases kind with
  | none => exact ⟨(), (List.eq_nil_of_length_eq_zero hwidth).symm⟩
  | type =>
    obtain ⟨raw, rfl⟩ := List.length_eq_one_iff.mp hwidth
    obtain ⟨t, rfl⟩ := ValueType.exists_toByte (htypes 0 Nat.one_pos raw rfl)
    exact ⟨t, Wire.type_eq t⟩
  | types =>
    obtain ⟨first, second, rfl⟩ := List.length_eq_two.mp hwidth
    obtain ⟨a, rfl⟩ := ValueType.exists_toByte (htypes 0 Nat.two_pos first rfl)
    obtain ⟨b, rfl⟩ := ValueType.exists_toByte (htypes 1 Nat.one_lt_two second rfl)
    refine ⟨(a, b), ?_⟩
    rw [encode, Wire.type_eq, Wire.type_eq, List.singleton_append]
  | slot =>
    obtain ⟨raw, rest, rfl⟩ := List.exists_cons_of_length_eq_add_one hwidth
    obtain ⟨t, rfl⟩ := ValueType.exists_toByte (htypes 0 Nat.one_pos raw rfl)
    obtain ⟨slot, rfl⟩ := Wire.exists_u16 (Nat.succ.inj hwidth)
    refine ⟨(t, slot), ?_⟩
    rw [encode, Wire.type_eq, List.singleton_append]
  | int32 =>
    obtain ⟨v, rfl⟩ := Wire.exists_u32 hwidth
    exact ⟨v.toInt32, rfl⟩
  | int64 =>
    obtain ⟨v, rfl⟩ := Wire.exists_u64 hwidth
    exact ⟨v.toInt64, rfl⟩
  | number =>
    obtain ⟨v, rfl⟩ := Wire.exists_u64 hwidth
    exact ⟨⟨v⟩, rfl⟩
  | symbol => exact Wire.exists_u16 hwidth
  | size => exact Wire.exists_u16 hwidth
  | target => exact Wire.exists_u32 hwidth

end Operand

theorem Instruction.encode_eq (i : Instruction UInt32) :
    i.encode = i.op.toByte :: i.operand.encode := by
  rw [encode, Wire.u8_eq, List.singleton_append]

namespace Code

/-! ## Flaws -/

/-- What keeps an instruction from standing at an offset inside the code. -/
inductive Flawed (bytes : Bytes) (pos : Nat) : Prop
  /-- The byte is the byte of no operation. -/
  | opcode {raw : UInt8} (hraw : bytes[pos]? = some raw) (hop : ∀ op : Opcode, op.toByte ≠ raw)
  /-- An operand that should be a type is the byte of no type. -/
  | type {op : Opcode} {k : Nat} {raw : UInt8} (hop : bytes[pos]? = some op.toByte)
      (hk : k < op.operands.typeCount) (hraw : bytes[pos + 1 + k]? = some raw) (hlarge : 14 ≤ raw)
  /-- The code ends before the operands do. -/
  | cutOff {op : Opcode} (hop : bytes[pos]? = some op.toByte)
      (hshort : bytes.length < pos + 1 + op.operands.width)

/-- The offsets that are reached from the start of the code by going from instruction to
instruction, as long as there is no flaw. -/
inductive Reached (bytes : Bytes) : Nat → Prop
  | start : Reached bytes 0
  | next {pos : Nat} {op : Opcode} (h : Reached bytes pos) (hop : bytes[pos]? = some op.toByte)
      (hsound : ¬ Flawed bytes pos) : Reached bytes (pos + (1 + op.operands.width))

variable {bytes : Bytes} {pos : Nat} {i : Instruction UInt32} {rest : Bytes}

/-- The first byte of an instruction is that of its operation. -/
theorem getElem?_of_drop_eq (h : bytes.drop pos = i.encode ++ rest) :
    bytes[pos]? = some i.op.toByte := by
  have hhead := congrArg (·[0]?) h
  rwa [List.getElem?_drop, Instruction.encode_eq, Nat.add_zero] at hhead

/-- The bytes after it are those of its operands. -/
theorem getElem?_operand_of_drop_eq {k : Nat} (h : bytes.drop pos = i.encode ++ rest)
    (hk : k < i.op.operands.width) : bytes[pos + 1 + k]? = i.operand.encode[k]? := by
  have hwidth : k < i.operand.encode.length := by rwa [Operand.length_encode]
  have hbyte := congrArg (·[k + 1]?) h
  rw [Instruction.encode_eq, List.cons_append] at hbyte
  simp only [List.getElem?_drop, List.getElem?_cons_succ] at hbyte
  rw [← List.getElem?_append_left hwidth, ← hbyte, Nat.add_assoc, Nat.add_comm 1 k]

/-- No instruction stands at a flaw. -/
theorem not_flawed_of_drop_eq (h : bytes.drop pos = i.encode ++ rest) : ¬ Flawed bytes pos := by
  have hfirst := getElem?_of_drop_eq h
  have hop : ∀ op : Opcode, bytes[pos]? = some op.toByte → op = i.op := by
    intro op hop
    exact Opcode.toByte_inj.mp (Option.some.inj (hop.symm.trans hfirst))
  intro hflawed
  cases hflawed with
  | opcode hraw hnone => exact hnone i.op (Option.some.inj (hfirst.symm.trans hraw))
  | @type op k raw hraw hk htype hlarge =>
    obtain rfl := hop op hraw
    rw [getElem?_operand_of_drop_eq h (hk.trans_le i.op.operands.typeCount_le_width)] at htype
    exact absurd (Operand.encode_lt hk htype) (UInt8.not_lt.mpr hlarge)
  | @cutOff op hraw hshort =>
    obtain rfl := hop op hraw
    have hlength := congrArg List.length h
    rw [List.length_drop, List.length_append, Instruction.length_encode, Instruction.size]
      at hlength
    omega

/-- **An instruction stands wherever there is no flaw.** -/
theorem exists_instruction_iff (hpos : pos < bytes.length) :
    (∃ i rest, bytes.drop pos = Instruction.encode i ++ rest) ↔ ¬ Flawed bytes pos := by
  constructor
  · rintro ⟨i, rest, h⟩
    exact not_flawed_of_drop_eq h
  · intro hsound
    have hraw : bytes[pos]? = some bytes[pos] := List.getElem?_eq_getElem hpos
    obtain ⟨op, hop⟩ : ∃ op : Opcode, op.toByte = bytes[pos] := by
      by_contra hnone
      exact hsound (.opcode hraw (not_exists.mp hnone))
    rw [← hop] at hraw
    have hroom : pos + 1 + op.operands.width ≤ bytes.length :=
      not_lt.mp fun hshort => hsound (.cutOff hraw hshort)
    -- the bytes after the first one, as many as the operands take
    let args := (bytes.drop (pos + 1)).take op.operands.width
    have hwidth : args.length = op.operands.width := by
      rw [List.length_take, List.length_drop]
      omega
    have htypes : ∀ k < op.operands.typeCount, ∀ raw, args[k]? = some raw → raw < 14 := by
      intro k hk raw hargs
      obtain ⟨hlt, -⟩ := List.getElem?_eq_some_iff.mp hargs
      rw [List.getElem?_take_of_lt (hwidth ▸ hlt), List.getElem?_drop] at hargs
      exact UInt8.not_le.mp fun hlarge => hsound (.type hraw hk hargs hlarge)
    obtain ⟨x, hx⟩ := Operand.exists_encode hwidth htypes
    refine ⟨⟨op, x⟩, bytes.drop (pos + 1 + op.operands.width), ?_⟩
    rw [Instruction.encode_eq, hx, List.drop_eq_getElem_cons hpos, ← hop, List.cons_append,
      ← List.drop_drop (l := bytes) (i := op.operands.width), List.take_append_drop]

/-! ## Going from instruction to instruction -/

/-- The rest of the code from the `k`-th instruction on. -/
theorem drop_offset (instructions : List (Instruction UInt32)) (k : Nat) :
    (encode instructions).drop (offset instructions k) = encode (instructions.drop k) := by
  have hsplit :
      encode instructions = encode (instructions.take k) ++ encode (instructions.drop k) := by
    rw [encode, encode, encode, ← List.flatMap_append, List.take_append_drop]
  rw [hsplit, offset, ← length_encode, List.drop_left]

/-- Each instruction stands at its offset. -/
theorem drop_offset_eq_append {instructions : List (Instruction UInt32)} {k : Nat}
    (hk : k < instructions.length) : (encode instructions).drop (offset instructions k) =
      instructions[k].encode ++ encode (instructions.drop (k + 1)) := by
  rw [drop_offset, List.drop_eq_getElem_cons hk, encode_cons]

/-- What is reached in the encoding of instructions is the start of one of them, or the end. -/
theorem Reached.eq_offset {instructions : List (Instruction UInt32)}
    (h : Reached (encode instructions) pos) :
    ∃ k ≤ instructions.length, pos = offset instructions k := by
  induction h with
  | start => exact ⟨0, Nat.zero_le _, rfl⟩
  | @next pos op _ hop _ ih =>
    obtain ⟨k, -, rfl⟩ := ih
    have hinside : offset instructions k < size instructions := by
      rw [← length_encode]
      exact (List.getElem?_eq_some_iff.mp hop).1
    have hk : k < instructions.length := by
      by_contra hge
      rw [offset, List.take_of_length_le (not_lt.mp hge)] at hinside
      exact lt_irrefl _ hinside
    have hfirst := getElem?_of_drop_eq (drop_offset_eq_append hk)
    have hsame : op = instructions[k].op :=
      Opcode.toByte_inj.mp (Option.some.inj (hop.symm.trans hfirst))
    refine ⟨k + 1, hk, ?_⟩
    rw [offset_succ (List.getElem?_eq_getElem hk), hsame, Instruction.size]

/-- In the encoding of instructions no flaw is reached. -/
theorem Reached.not_flawed {instructions : List (Instruction UInt32)}
    (h : Reached (encode instructions) pos) : ¬ Flawed (encode instructions) pos := by
  obtain ⟨k, hk, rfl⟩ := h.eq_offset
  rcases Nat.lt_or_eq_of_le hk with hlt | rfl
  · exact not_flawed_of_drop_eq (drop_offset_eq_append hlt)
  · -- every flaw has a first byte, and there is none at the end
    have hend : (encode instructions)[offset instructions instructions.length]? = none := by
      rw [offset_length, ← length_encode, List.getElem?_length]
    intro hflawed
    cases hflawed with
    | opcode hraw => cases hend.symm.trans hraw
    | type hop => cases hend.symm.trans hop
    | cutOff hop => cases hend.symm.trans hop

/-- From every offset that is reached, instructions go on to the end of the code or to a flaw. -/
theorem flaw_or_tiling (h : Reached bytes pos) (hpos : pos ≤ bytes.length) :
    (∃ flaw, Reached bytes flaw ∧ Flawed bytes flaw) ∨
      ∃ instructions, bytes.drop pos = encode instructions := by
  -- every instruction takes a byte, so what is left of the code gets shorter
  induction hleft : bytes.length - pos using Nat.strong_induction_on generalizing pos with
  | _ left ih =>
    rcases Nat.lt_or_eq_of_le hpos with hlt | rfl
    · by_cases hflawed : Flawed bytes pos
      · exact .inl ⟨pos, h, hflawed⟩
      · obtain ⟨i, rest, hi⟩ := (exists_instruction_iff hlt).mpr hflawed
        have hnext : Reached bytes (pos + i.size) := h.next (getElem?_of_drop_eq hi) hflawed
        have hlength := congrArg List.length hi
        rw [List.length_drop, List.length_append, Instruction.length_encode] at hlength
        have hsize := i.size_pos
        have hrest : bytes.drop (pos + i.size) = rest := by
          rw [← List.drop_drop, hi, ← Instruction.length_encode, List.drop_left]
        rcases ih (bytes.length - (pos + i.size)) (by omega) hnext (by omega) rfl with
          hflaw | ⟨instructions, hcode⟩
        · exact .inl hflaw
        · exact .inr ⟨i :: instructions, by rw [hi, encode_cons, ← hcode, hrest]⟩
    · exact .inr ⟨[], List.drop_length⟩

/-- Code is made of instructions exactly when no flaw is reached in it. -/
theorem exists_encode_iff :
    (∃ instructions, bytes = encode instructions) ↔
      ¬ ∃ pos, Reached bytes pos ∧ Flawed bytes pos := by
  constructor
  · rintro ⟨instructions, rfl⟩ ⟨pos, hreached, hflawed⟩
    exact hreached.not_flawed hflawed
  · intro hsound
    exact (flaw_or_tiling .start (Nat.zero_le _)).resolve_left hsound

theorem succeeds_decode_iff :
    Succeeds (decode bytes) ↔ ∃ instructions, bytes = encode instructions := by
  constructor
  · rintro ⟨code, hcode⟩
    obtain ⟨instructions, -, hbytes⟩ := decode_eq_ok_iff.mp hcode
    exact ⟨instructions, hbytes⟩
  · rintro ⟨instructions, hbytes⟩
    exact ⟨_, decode_eq_ok_iff.mpr ⟨instructions, rfl, hbytes⟩⟩

/-! ## The tiling -/

section Placed

variable {instructions : List (Instruction UInt32)} {p q : Placed} {k : Nat}

/-- The size of an instruction fits in four bytes. -/
theorem toNat_size_placedAt (i : Instruction UInt32) (pos : Nat) :
    (i.placedAt pos).size.toNat = i.size := by
  have hwidth := i.op.operands.width_le
  have hsize : i.size < 4294967296 := by
    rw [Instruction.size]
    omega
  exact UInt32.toNat_ofNat_of_lt' hsize

/-- The first instruction stands at the start of the code. -/
theorem offset_of_head?_placed (hp : (placed instructions).head? = some p) : p.offset = 0 := by
  rw [List.head?_eq_getElem?, getElem?_placed] at hp
  obtain ⟨i, -, rfl⟩ := Option.map_eq_some_iff.mp hp
  rfl

/-- An instruction ends where the next one starts, in four bytes. -/
theorem placedAt_add (i : Instruction UInt32) (pos : Nat) :
    (i.placedAt pos).offset + (i.placedAt pos).size = (pos + i.size).toUInt32 := by
  show pos.toUInt32 + i.size.toUInt32 = _
  rw [Nat.toUInt32_eq, Nat.toUInt32_eq, Nat.toUInt32_eq, UInt32.ofNat_add]

/-- The end of the `k`-th instruction, in four bytes. -/
theorem stop_of_getElem?_placed (hp : (placed instructions)[k]? = some p) :
    p.offset + p.size = (offset instructions (k + 1)).toUInt32 := by
  rw [getElem?_placed] at hp
  obtain ⟨i, hi, rfl⟩ := Option.map_eq_some_iff.mp hp
  rw [placedAt_add, offset_succ hi]

/-- An instruction ends where the next one starts. -/
theorem offset_of_getElem?_placed (hp : (placed instructions)[k]? = some p)
    (hq : (placed instructions)[k + 1]? = some q) : q.offset = p.offset + p.size := by
  rw [stop_of_getElem?_placed hp]
  rw [getElem?_placed] at hq
  obtain ⟨i, -, rfl⟩ := Option.map_eq_some_iff.mp hq
  rfl

/-- The last instruction is the one before the end. -/
theorem getElem?_of_getLast?_placed (hp : (placed instructions).getLast? = some p) :
    ∃ k, (placed instructions)[k]? = some p ∧ offset instructions (k + 1) = size instructions := by
  rw [List.getLast?_eq_getElem?, placed, length_placedFrom] at hp
  refine ⟨_, hp, ?_⟩
  obtain ⟨hlt, -⟩ := List.getElem?_eq_some_iff.mp hp
  rw [length_placedFrom] at hlt
  rw [Nat.sub_add_cancel (by omega), offset_length]

/-- In code that is not too long, the sum of offset and size does not wrap round. -/
theorem toNat_stop_of_getElem?_placed (hshort : size instructions ≤ 4294967296)
    (hp : (placed instructions)[k]? = some p) :
    p.offset.toNat + p.size.toNat = offset instructions (k + 1) := by
  rw [getElem?_placed] at hp
  obtain ⟨i, hi, rfl⟩ := Option.map_eq_some_iff.mp hp
  rw [toNat_size_placedAt, offset_succ hi]
  exact congrArg (· + i.size) (toNat_offset (List.getElem?_eq_some_iff.mp hi).1 hshort)

end Placed

/-- **Decoding is a lossless tiling.** The instructions that are decoded start at the first byte of
the code, each at the end of the one before, and the last one ends with the code; each of them takes
its operation byte and the operands of its kind, and their bytes in order are the code again.
Offsets are numbers of four bytes and so is their sum with a size, and this says where an
instruction ends unless the code is longer than that. Decoding fails, always because of the input,
if and only if going from instruction to instruction leads to a byte that is no operation, to a type
that is none, or to operands that the end of the code cuts off. -/
theorem decode_lossless (bytes : Bytes) :
    (∀ code, decode bytes = .ok code →
      (∀ p, code.head? = some p → p.offset = 0) ∧
      (∀ k p q, code[k]? = some p → code[k + 1]? = some q → q.offset = p.offset + p.size) ∧
      (∀ p, code.getLast? = some p → p.offset + p.size = bytes.length.toUInt32) ∧
      (∀ p ∈ code, p.size.toNat = 1 + p.instruction.op.operands.width) ∧
      (bytes.length ≤ 4294967296 →
        (∀ k p q, code[k]? = some p → code[k + 1]? = some q →
          q.offset.toNat = p.offset.toNat + p.size.toNat) ∧
        ∀ p, code.getLast? = some p → p.offset.toNat + p.size.toNat = bytes.length) ∧
      code.flatMap (fun p => p.instruction.op.toByte :: p.instruction.operand.encode) = bytes) ∧
    ((∃ e, decode bytes = .error e) ↔ ∃ pos, Reached bytes pos ∧ Flawed bytes pos) ∧
    ∀ e, decode bytes = .error e → e.kind = .verification := by
  refine ⟨fun code hcode => ?_, ?_, fun e => kind_of_decode⟩
  · obtain ⟨instructions, rfl, rfl⟩ := decode_eq_ok_iff.mp hcode
    rw [length_encode]
    refine ⟨fun p => offset_of_head?_placed, fun k p q => offset_of_getElem?_placed, ?_, ?_, ?_, ?_⟩
    · intro p hp
      obtain ⟨k, hk, hend⟩ := getElem?_of_getLast?_placed hp
      rw [stop_of_getElem?_placed hk, hend]
    · intro p hp
      obtain ⟨k, i, -, rfl⟩ := mem_placed.mp hp
      exact toNat_size_placedAt i _
    · intro hshort
      constructor
      · intro k p q hp hq
        rw [toNat_stop_of_getElem?_placed hshort hp]
        rw [getElem?_placed] at hq
        obtain ⟨i, hi, rfl⟩ := Option.map_eq_some_iff.mp hq
        exact toNat_offset (List.getElem?_eq_some_iff.mp hi).1 hshort
      · intro p hp
        obtain ⟨k, hk, hend⟩ := getElem?_of_getLast?_placed hp
        rw [toNat_stop_of_getElem?_placed hshort hk, hend]
    · simp only [← Instruction.encode_eq]
      rw [← List.flatMap_map, placed, map_instruction_placedFrom, encode]
  · rw [exists_error_iff, succeeds_decode_iff, exists_encode_iff, not_not]

/-- Three instructions with their offsets, and code whose second instruction has a type that is
none. -/
theorem decode_lossless_nearby :
    let good : Bytes := [0x01, 0x05, 1, 2, 3, 4, 0x10, 13, 7, 0]
    let bad : Bytes := [0x01, 0x10, 14, 7, 0]
    (∃ code, decode good = .ok code ∧ code.map Placed.offset = [0, 1, 6] ∧
      code.flatMap (fun p => p.instruction.op.toByte :: p.instruction.operand.encode) = good) ∧
    Reached bad 1 ∧ Flawed bad 1 ∧ ∃ e, decode bad = .error e ∧ e.kind = .verification := by
  intro good bad
  have hgood : ∃ code, decode good = .ok code ∧ code.map Placed.offset = [0, 1, 6] :=
    ⟨_, rfl, by decide⟩
  obtain ⟨code, hcode, hoffsets⟩ := hgood
  obtain ⟨-, -, -, -, -, hbytes⟩ := (decode_lossless good).1 code hcode
  have hfirst : ¬ Flawed bad 0 :=
    (exists_instruction_iff (by decide)).mp ⟨⟨.pushNull, ()⟩, [0x10, 14, 7, 0], by decide⟩
  have hreached : Reached bad (0 + (1 + Opcode.pushNull.operands.width)) := .next .start rfl hfirst
  have hload : bad[1]? = some Opcode.load.toByte := rfl
  have htype : bad[1 + 1 + 0]? = some 14 := rfl
  have hflawed : Flawed bad 1 := .type hload (by decide) htype (by decide)
  obtain ⟨e, he⟩ := (decode_lossless bad).2.1.mpr ⟨1, hreached, hflawed⟩
  exact ⟨⟨code, hcode, hoffsets, hbytes⟩, hreached, hflawed, e, he, (decode_lossless bad).2.2 e he⟩

end Code

end Bytecode
