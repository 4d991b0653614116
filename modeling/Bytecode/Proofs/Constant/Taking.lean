import Mathlib
import Bytecode.Proofs.Constant.RoundTrip
import Bytecode.Proofs.Wire.Taking

/-!
# What a decoded constant has taken

A constant that was read has taken its own encoding, whatever the input was: there is no second way
to write its type, a count or a length, and no byte is passed over. The lengths and counts that were
read fit in four bytes, so that what was decoded can be written again.

## Main results

* `Read.took_name`: a name has taken its encoding
* `Read.took_collect`: a list of items has taken what its items have taken
* `Read.took_constantWithin`: a constant has taken its encoding, and it fits
* `Constant.encode_selfDelimiting`: reading and writing constants undo each other, whatever follows
* `Constant.five_le_length_encode`: a constant takes a type byte and four bytes more
-/

namespace Bytecode

/-- Of the bytes to come before a read, those it has not taken come after it. -/
theorem Reader.Took.remaining_eq {r r' : Reader} {bytes : Bytes} (h : r.Took r' bytes) :
    r.remaining = bytes.length + r'.remaining := by
  rw [r.remaining_eq, r'.remaining_eq, h.rest_eq, List.length_append]

/-- Every constant has a type byte and then a length or a count. -/
theorem Constant.five_le_length_encode (c : Constant) : 5 ≤ c.encode.length := by
  cases c <;> simp [encode, encodeText, encodeCount] <;> omega

namespace Read

variable {α : Type} {r r' : Reader}

/-- A name has taken its encoding. -/
theorem took_name {t : Text} (h : name r = .ok t r') :
    ∃ bytes, Wire.name t = .ok bytes ∧ r.Took r' bytes := by
  obtain ⟨length, r₁, hlength, h⟩ := exists_of_bind_ok h
  obtain ⟨htook, hcount⟩ := took_take h
  have hlimit : ¬ 65535 < t.length := by
    have := length.toNat_lt
    omega
  refine ⟨Wire.u16 t.length.toUInt16 ++ t, ?_, ?_⟩
  · simp only [Wire.name, Wire.requireName, Wire.maxName, hlimit, if_false]
    rfl
  · rw [hcount, Nat.toUInt16_eq, UInt16.ofNat_toNat]
    exact (took_u16 hlength).trans htook

theorem took_longText {t : Text} (h : longText r = .ok t r') :
    t.length < 4294967296 ∧ r.Took r' (Constant.encodeText t) := by
  obtain ⟨length, r₁, hlength, h⟩ := exists_of_bind_ok h
  obtain ⟨htook, hcount⟩ := took_take h
  refine ⟨hcount ▸ length.toNat_lt, ?_⟩
  rw [Constant.encodeText, Constant.encodeCount, hcount, Nat.toUInt32_eq, UInt32.ofNat_toNat]
  exact (took_u32 hlength).trans htook

theorem took_count {least n : Nat} (h : count least r = .ok n r') :
    n < 4294967296 ∧ r.Took r' (Constant.encodeCount n) := by
  obtain ⟨v, r₁, hv, h⟩ := exists_of_bind_ok h
  obtain ⟨reader, r₂, hget, h⟩ := exists_of_bind_ok h
  cases hget
  by_cases hroom : r₁.remaining / least < v.toNat
  · rw [if_pos hroom] at h
    cases h
  · rw [if_neg hroom] at h
    cases h
    refine ⟨v.toNat_lt, ?_⟩
    rw [Constant.encodeCount, Nat.toUInt32_eq, UInt32.ofNat_toNat]
    exact took_u32 hv

section Collect

variable {item : Read α} {n : Nat} {xs : List α}

/-- Items after those already read have taken what each of them has taken. -/
theorem took_collectFrom {Spells : α → Bytes → Prop} {done : List α}
    (hitem : ∀ {r x r'}, item r = .ok x r' → ∃ bytes, Spells x bytes ∧ r.Took r' bytes)
    (h : collectFrom item n done r = .ok xs r') :
    ∃ found parts, xs = done.reverse ++ found ∧ found.length = n ∧
      List.Forall₂ Spells found parts ∧ r.Took r' parts.flatten := by
  induction n generalizing r done with
  | zero =>
    cases h
    exact ⟨[], [], (List.append_nil _).symm, rfl, .nil, .refl _⟩
  | succ n ih =>
    obtain ⟨x, r₁, hx, h⟩ := exists_of_bind_ok h
    obtain ⟨bytes, hspells, htook⟩ := hitem hx
    obtain ⟨found, parts, rfl, hlength, hparts, htook'⟩ := ih h
    refine ⟨x :: found, bytes :: parts, ?_, ?_, .cons hspells hparts, htook.trans htook'⟩
    · rw [List.reverse_cons, List.append_assoc, List.singleton_append]
    · rw [List.length_cons, hlength]

/-- A list of items has taken what its items have taken, one after the other. -/
theorem took_collect {Spells : α → Bytes → Prop}
    (hitem : ∀ {r x r'}, item r = .ok x r' → ∃ bytes, Spells x bytes ∧ r.Took r' bytes)
    (h : collect n item r = .ok xs r') :
    xs.length = n ∧ ∃ parts, List.Forall₂ Spells xs parts ∧ r.Took r' parts.flatten := by
  obtain ⟨found, parts, rfl, hlength, hparts, htook⟩ := took_collectFrom hitem h
  exact ⟨hlength, parts, hparts, htook⟩

/-- A list of items that each have one encoding. -/
theorem took_collect_flatMap {Fits : α → Prop} {encode : α → Bytes}
    (hitem : ∀ {r x r'}, item r = .ok x r' → Fits x ∧ r.Took r' (encode x))
    (h : collect n item r = .ok xs r') :
    xs.length = n ∧ (∀ x ∈ xs, Fits x) ∧ r.Took r' (xs.flatMap encode) := by
  have hspells : ∀ {r x r'}, item r = .ok x r' →
      ∃ bytes, (Fits x ∧ encode x = bytes) ∧ r.Took r' bytes := by
    intro r x r' hx
    obtain ⟨hfits, htook⟩ := hitem hx
    exact ⟨encode x, ⟨hfits, rfl⟩, htook⟩
  obtain ⟨hlength, parts, hparts, htook⟩ := took_collect hspells h
  obtain ⟨hfits, hencode⟩ := (List.forall₂_and_left _ _).mp hparts
  have hmap : xs.map encode = parts := by
    rwa [← List.forall₂_eq_eq_eq, List.forall₂_map_left_iff]
  rw [List.flatMap_def, hmap]
  exact ⟨hlength, hfits, htook⟩

/-- A list behind its count has taken both. -/
theorem took_counted {β : Type} {Fits : α → Prop} {encode : α → Bytes} {least : Nat}
    {f : List α → β} {y : β}
    (hitem : ∀ {r x r'}, item r = .ok x r' → Fits x ∧ r.Took r' (encode x))
    (h : (do return f (← collect (← count least) item) : Read β) r = .ok y r') :
    ∃ xs, y = f xs ∧ xs.length < 4294967296 ∧ (∀ x ∈ xs, Fits x) ∧
      r.Took r' (Constant.encodeCount xs.length ++ xs.flatMap encode) := by
  obtain ⟨n, r₁, hn, h⟩ := exists_of_bind_ok h
  obtain ⟨xs, r₂, hxs, h⟩ := exists_of_bind_ok h
  cases h
  obtain ⟨hlt, htook⟩ := took_count hn
  obtain ⟨rfl, hfits, htook'⟩ := took_collect_flatMap hitem hxs
  exact ⟨xs, rfl, hlt, hfits, htook.trans htook'⟩

end Collect

/-- A constant has taken its encoding, and its lengths and counts fit, whatever bounds its
nesting. -/
theorem took_constantWithin {fuel : Nat} {c : Constant} (h : constantWithin fuel r = .ok c r') :
    c.Fits ∧ r.Took r' c.encode := by
  -- the elements of an object array are read with one level less
  induction fuel generalizing r r' c with
  | zero => cases h
  | succ fuel ih =>
    obtain ⟨raw, r₁, hraw, h⟩ := exists_of_bind_ok h
    cases htype : ValueType.ofByte? raw with
    | none =>
      rw [htype] at h
      cases h
    | some type =>
      rw [htype] at h
      have hbyte : r.Took r₁ (Wire.type type) := by
        rw [Wire.type, ValueType.toByte_of_ofByte? htype]
        exact took_u8 hraw
      cases type with
      | string =>
        obtain ⟨t, r₂, ht, h⟩ := exists_of_bind_ok h
        cases h
        obtain ⟨hlength, htook⟩ := took_longText ht
        exact ⟨.string hlength, hbyte.trans htook⟩
      | map =>
        obtain ⟨keys, rfl, hlength, hkeys, htook⟩ := took_counted took_longText h
        rw [Constant.encode, List.append_assoc]
        exact ⟨.map hlength hkeys, hbyte.trans htook⟩
      | intArray =>
        obtain ⟨values, rfl, hlength, -, htook⟩ :=
          took_counted (fun hvalue => ⟨trivial, took_i32 hvalue⟩) h
        rw [Constant.encode, List.append_assoc]
        exact ⟨.ints hlength, hbyte.trans htook⟩
      | longArray =>
        obtain ⟨values, rfl, hlength, -, htook⟩ :=
          took_counted (fun hvalue => ⟨trivial, took_i64 hvalue⟩) h
        rw [Constant.encode, List.append_assoc]
        exact ⟨.longs hlength, hbyte.trans htook⟩
      | numberArray =>
        obtain ⟨values, rfl, hlength, -, htook⟩ :=
          took_counted (fun hvalue => ⟨trivial, took_number hvalue⟩) h
        rw [Constant.encode, List.append_assoc]
        exact ⟨.numbers hlength, hbyte.trans htook⟩
      | objectArray =>
        obtain ⟨elements, rfl, hlength, helements, htook⟩ := took_counted ih h
        rw [Constant.encode, Constant.encodeAll_eq_flatMap, List.append_assoc]
        exact ⟨.objects hlength helements, hbyte.trans htook⟩
      | _ => cases h

theorem took_constant {c : Constant} (h : constant r = .ok c r') : c.Fits ∧ r.Took r' c.encode := by
  obtain ⟨reader, r₀, hget, h⟩ := exists_of_bind_ok h
  cases hget
  exact took_constantWithin h

/-- A constant is read exactly where its encoding stands, and reading stops at its end. -/
theorem constant_eq_ok_iff {c : Constant} :
    constant r = .ok c r' ↔ c.Fits ∧ r.Took r' c.encode := by
  refine ⟨took_constant, ?_⟩
  rintro ⟨hfits, htook⟩
  have hread : Parses constant r.pos c.encode r'.rest c := parses_constant hfits
  have hstart : Reader.atOffset r.pos (c.encode ++ r'.rest) = r :=
    Reader.ext rfl htook.rest_eq.symm
  have hend : Reader.atOffset (r.pos + c.encode.length) r'.rest = r' :=
    Reader.ext htook.pos_eq.symm rfl
  rwa [Parses, hstart, hend] at hread

end Read

namespace Constant

/-- Where an encoding ends can be told from its own bytes: what is written after it makes it no
other constant. -/
theorem eq_of_encode_append {c d : Constant} {rest more : Bytes} (hc : c.Fits) (hd : d.Fits)
    (h : c.encode ++ rest = d.encode ++ more) : c = d ∧ rest = more := by
  have hfirst : Read.constant (.atOffset 0 (c.encode ++ rest)) = _ := Read.parses_constant hc
  have hsecond : Read.constant (.atOffset 0 (d.encode ++ more)) = _ := Read.parses_constant hd
  rw [← h, hfirst] at hsecond
  obtain ⟨rfl, -⟩ := EStateM.Result.ok.inj hsecond
  exact ⟨rfl, List.append_cancel_left h⟩

/-- **The encoding of constants is self-delimiting and has one spelling.** A constant whose lengths
and counts fit in four bytes is read back from its encoding at any offset, whatever follows it, and
reading stops right where the rest begins. Wherever in a buffer a constant can be read, the bytes
that were taken are its encoding, and it fits. So no encoding begins another one, and every constant
that fits has an encoding of its own. -/
theorem encode_selfDelimiting :
    (∀ c : Constant, c.Fits → ∀ (pos : Nat) (rest : Bytes),
      Read.constant (.atOffset pos (c.encode ++ rest)) =
        .ok c (.atOffset (pos + c.encode.length) rest)) ∧
    (∀ (buffer : Bytes) (pos : Nat) (c : Constant) (r : Reader),
      Read.constant (.atOffset pos (buffer.drop pos)) = .ok c r →
        c.Fits ∧ r.pos = pos + c.encode.length ∧ r.rest = buffer.drop r.pos ∧
          (buffer.drop pos).take (r.pos - pos) = c.encode) ∧
    ∀ c d : Constant, c.Fits → d.Fits → c.encode <+: d.encode → c = d := by
  refine ⟨fun c hc pos rest => Read.parses_constant hc, ?_, ?_⟩
  · intro buffer pos c r hread
    obtain ⟨hfits, htook⟩ := Read.constant_eq_ok_iff.mp hread
    have hrest : buffer.drop pos = c.encode ++ r.rest := htook.rest_eq
    have hpos : r.pos = pos + c.encode.length := htook.pos_eq
    refine ⟨hfits, hpos, ?_, ?_⟩
    · rw [hpos, ← List.drop_drop, hrest, List.drop_left]
    · rw [hpos, Nat.add_sub_cancel_left, hrest, List.take_left]
  · rintro c d hc hd ⟨rest, hrest⟩
    rw [← List.append_nil d.encode] at hrest
    exact (eq_of_encode_append hc hd hrest).1

/-- An object array within an object array, read from the middle of a buffer. -/
theorem encode_selfDelimiting_nested :
    let c : Constant := .objects [.string [34], .objects [.ints [-1], .map [[97], []]], .longs []]
    let buffer : Bytes := [7, 9] ++ (c.encode ++ [13, 0])
    c.Fits ∧ ∃ r, Read.constant (.atOffset 2 (buffer.drop 2)) = .ok c r ∧ r.rest = [13, 0] ∧
      (buffer.drop 2).take (r.pos - 2) = c.encode := by
  intro c buffer
  have hc : c.Fits := by
    refine .objects (by decide) (List.forall_mem_cons.mpr ⟨.string (by decide), ?_⟩)
    refine List.forall_mem_cons.mpr ⟨?_, List.forall_mem_singleton.mpr (.longs (by decide))⟩
    refine .objects (by decide) (List.forall_mem_cons.mpr ⟨.ints (by decide), ?_⟩)
    exact List.forall_mem_singleton.mpr (.map (by decide) (by decide))
  have hread : Read.constant (.atOffset 2 (buffer.drop 2)) = _ :=
    encode_selfDelimiting.1 c hc 2 [13, 0]
  obtain ⟨-, -, -, htaken⟩ := encode_selfDelimiting.2.1 buffer 2 c _ hread
  exact ⟨hc, _, hread, rfl, htaken⟩

end Constant

end Bytecode
