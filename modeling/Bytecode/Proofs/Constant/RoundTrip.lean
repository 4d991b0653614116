import Mathlib
import Bytecode.Constant
import Bytecode.Proofs.Wire.Parsing

/-!
# Reading constants back

A constant is read back from its encoding, whatever follows it, as long as its lengths and counts
fit in four bytes. Constants nest, and the read is bounded by fuel; the bytes of a constant are fuel
enough, since every level of nesting takes some of its own.

## Main definitions

* `Constant.Fits`: all lengths and counts of a constant fit in four bytes

## Main results

* `Read.parses_constant`: a constant is read back from its encoding
-/

namespace Bytecode

/-- All lengths and counts of a constant fit in four bytes. -/
inductive Constant.Fits : Constant → Prop
  | string {value : Text} (h : value.length < 4294967296) : Fits (.string value)
  | map {keys : List Text} (h : keys.length < 4294967296)
      (hkeys : ∀ key ∈ keys, key.length < 4294967296) : Fits (.map keys)
  | ints {values : List Int32} (h : values.length < 4294967296) : Fits (.ints values)
  | longs {values : List Int64} (h : values.length < 4294967296) : Fits (.longs values)
  | numbers {values : List Number} (h : values.length < 4294967296) : Fits (.numbers values)
  | objects {elements : List Constant} (h : elements.length < 4294967296)
      (helements : ∀ c ∈ elements, Fits c) : Fits (.objects elements)

namespace Constant

theorem encodeAll_eq_flatMap (elements : List Constant) :
    encodeAll elements = elements.flatMap encode := by
  induction elements with
  | nil => rfl
  | cons c rest ih => rw [encodeAll, ih, List.flatMap_cons]

/-- Every constant takes a byte for its type. -/
theorem length_encode_pos (c : Constant) : 0 < c.encode.length := by
  cases c <;> simp [encode]

end Constant

/-- A list takes at least as many bytes as its items. -/
theorem length_mul_le_length_flatMap {α : Type} {encode : α → Bytes} {least : Nat} {xs : List α}
    (h : ∀ x ∈ xs, least ≤ (encode x).length) : xs.length * least ≤ (xs.flatMap encode).length := by
  induction xs with
  | nil => simp
  | cons x xs ih =>
    have hx := h x List.mem_cons_self
    have hxs := ih fun y hy => h y (List.mem_cons_of_mem x hy)
    rw [List.flatMap_cons, List.length_append, List.length_cons, Nat.add_mul, Nat.one_mul]
    omega

theorem length_le_length_flatMap {α : Type} {encode : α → Bytes} {xs : List α} {x : α}
    (hx : x ∈ xs) : (encode x).length ≤ (xs.flatMap encode).length := by
  obtain ⟨before, after, rfl⟩ := List.append_of_mem hx
  simp only [List.flatMap_append, List.flatMap_cons, List.length_append]
  omega

namespace Read

variable {pos : Nat} {rest : Bytes}

theorem toNat_toUInt32 {n : Nat} (h : n < 4294967296) : n.toUInt32.toNat = n := by
  rw [Nat.toUInt32_eq, UInt32.toNat_ofNat_of_lt' h]

theorem parses_longText {t : Text} (h : t.length < 4294967296) :
    Parses longText pos (Constant.encodeText t) rest t := by
  refine Parses.bind (parses_u32 _) ?_
  rw [toNat_toUInt32 h]
  exact parses_take t rest

/-- A count is accepted when the input can hold as many items. -/
theorem parses_count {least n : Nat} (hleast : 0 < least) (hn : n < 4294967296)
    (hroom : n * least ≤ rest.length) :
    Parses (count least) pos (Constant.encodeCount n) rest n := by
  have hcount : ¬ rest.length / least < n :=
    Nat.not_lt.mpr ((Nat.le_div_iff_mul_le hleast).mpr hroom)
  have hbytes : Parses (count least) pos (Constant.encodeCount n ++ []) rest n := by
    refine Parses.bind (parses_u32 _) (Parses.get ?_)
    simp only [List.nil_append, Reader.remaining_atOffset, toNat_toUInt32 hn, hcount, if_false]
    exact Parses.pure
  rwa [List.append_nil] at hbytes

/-- A counted list whose items take at least `least` bytes each. -/
theorem parses_counted {α β : Type} {item : Read α} {encode : α → Bytes} {least : Nat}
    {xs : List α} (f : List α → β) (hleast : 0 < least) (hxs : xs.length < 4294967296)
    (hlength : ∀ x ∈ xs, least ≤ (encode x).length)
    (hitem : ∀ x ∈ xs, ∀ pos rest, Parses item pos (encode x) rest x) :
    Parses (do return f (← collect (← count least) item)) pos
      (Constant.encodeCount xs.length ++ xs.flatMap encode) rest (f xs) := by
  refine Parses.bind (parses_count hleast hxs ?_) ?_
  · rw [List.length_append]
    exact (length_mul_le_length_flatMap hlength).trans (Nat.le_add_right _ _)
  · exact Parses.bind_pure (parses_collect_flatMap hitem) rfl

/-- A constant is read back from its encoding, given fuel for each of its bytes. -/
theorem parses_constantWithin {c : Constant} {fuel : Nat} (h : c.Fits)
    (hfuel : c.encode.length ≤ fuel + 1) :
    Parses (constantWithin (fuel + 1)) pos c.encode rest c := by
  induction h generalizing fuel pos rest with
  | string h =>
    refine Parses.bind (parses_u8 _) ?_
    rw [ValueType.ofByte?_toByte]
    exact Parses.bind_pure (parses_longText h) rfl
  | map h hkeys =>
    rw [Constant.encode, List.append_assoc]
    refine Parses.bind (parses_u8 _) ?_
    rw [ValueType.ofByte?_toByte]
    refine parses_counted Constant.map (by decide) h ?_ fun key hkey pos rest =>
      parses_longText (hkeys key hkey)
    simp [Constant.encodeText, Constant.encodeCount]
  | ints h =>
    rw [Constant.encode, List.append_assoc]
    refine Parses.bind (parses_u8 _) ?_
    rw [ValueType.ofByte?_toByte]
    refine parses_counted Constant.ints (by decide) h ?_ fun value _ pos rest => parses_i32 value
    simp [Wire.i32]
  | longs h =>
    rw [Constant.encode, List.append_assoc]
    refine Parses.bind (parses_u8 _) ?_
    rw [ValueType.ofByte?_toByte]
    refine parses_counted Constant.longs (by decide) h ?_ fun value _ pos rest => parses_i64 value
    simp [Wire.i64, Wire.u64]
  | numbers h =>
    rw [Constant.encode, List.append_assoc]
    refine Parses.bind (parses_u8 _) ?_
    rw [ValueType.ofByte?_toByte]
    refine parses_counted Constant.numbers (by decide) h ?_ fun value _ pos rest =>
      parses_number value
    simp [Wire.number, Wire.u64]
  | @objects elements h helements ih =>
    rw [Constant.encode, Constant.encodeAll_eq_flatMap, List.append_assoc] at hfuel ⊢
    refine Parses.bind (parses_u8 _) ?_
    rw [ValueType.ofByte?_toByte]
    refine parses_counted Constant.objects (by decide) h (fun c _ => c.length_encode_pos) ?_
    -- the type byte and the count are not part of an element, so less fuel is enough for it
    intro c hc pos rest
    have hlength : c.encode.length ≤ (elements.flatMap Constant.encode).length :=
      length_le_length_flatMap hc
    have hpos := c.length_encode_pos
    simp only [List.length_append, Wire.length_type] at hfuel
    obtain ⟨m, rfl⟩ : ∃ m, fuel = m + 1 := ⟨fuel - 1, by omega⟩
    exact ih c hc (by omega)

/-- A constant is read back from its encoding, whatever follows it. -/
theorem parses_constant {c : Constant} (h : c.Fits) : Parses constant pos c.encode rest c := by
  refine Parses.get ?_
  have hpos := c.length_encode_pos
  have hlength : c.encode.length ≤ (c.encode ++ rest).length := by simp
  rw [Reader.remaining_atOffset]
  obtain ⟨m, hm⟩ : ∃ m, (c.encode ++ rest).length = m + 1 :=
    ⟨(c.encode ++ rest).length - 1, by omega⟩
  rw [hm] at hlength ⊢
  exact parses_constantWithin h hlength

end Read

end Bytecode
