import Mathlib
import Bytecode.Proofs.Outcome
import Bytecode.Proofs.Wire.Parsing

/-!
# What a read has taken

The converse of reading back: a read that gave a value has taken the encoding of that value, and
nothing else. Nothing is assumed of the input, which may come from anywhere. A word is determined by
the number it spells, so there is no second way to write it.

## Main definitions

* `Reader.Took r r' bytes`: between two readers lie exactly the given bytes

## Main results

* `Reader.Took.trans`: reads in sequence take bytes in sequence
* `Read.took_word`: a number has taken its digits
* `Read.took_u8` to `Read.took_number`: every word has taken its encoding
-/

namespace Bytecode

/-- From `r` to `r'` a read has taken `bytes`. -/
structure Reader.Took (r r' : Reader) (bytes : Bytes) : Prop where
  rest_eq : r.rest = bytes ++ r'.rest
  pos_eq : r'.pos = r.pos + bytes.length

namespace Reader.Took

variable {r r' r'' : Reader} {bytes more : Bytes}

theorem refl (r : Reader) : r.Took r [] := ⟨rfl, rfl⟩

/-- Reads in sequence take bytes in sequence. -/
theorem trans (h : r.Took r' bytes) (h' : r'.Took r'' more) : r.Took r'' (bytes ++ more) where
  rest_eq := by rw [h.rest_eq, h'.rest_eq, List.append_assoc]
  pos_eq := by rw [h'.pos_eq, h.pos_eq, List.length_append, Nat.add_assoc]

end Reader.Took

/-- A step that was mapped gave a value when it did before. -/
theorem exists_of_map_ok {ε σ α β : Type} {m : EStateM ε σ α} {f : α → β} {s t : σ} {y : β}
    (h : (f <$> m) s = .ok y t) : ∃ x, m s = .ok x t ∧ f x = y := by
  cases hm : m s with
  | ok x s' =>
    simp only [Functor.map, EStateM.map, hm] at h
    cases h
    exact ⟨x, rfl, rfl⟩
  | error e s' => simp [Functor.map, EStateM.map, hm] at h

namespace Read

variable {r r' : Reader}

theorem took_take {n : Nat} {bytes : Bytes} (h : take n r = .ok bytes r') :
    r.Took r' bytes ∧ bytes.length = n := by
  unfold take at h
  split at h
  · cases h
  · next hroom =>
    cases h
    rw [r.remaining_eq, Nat.not_lt] at hroom
    have hlength : (r.rest.take n).length = n := List.length_take_of_le hroom
    refine ⟨⟨(List.take_append_drop n r.rest).symm, ?_⟩, hlength⟩
    rw [hlength, Reader.pos_advance]

/-- A number has taken its digits. -/
theorem took_word {width n : Nat} (h : word width r = .ok n r') :
    r.Took r' (Wire.digits width n) ∧ n < Wire.range width := by
  obtain ⟨bytes, hbytes, rfl⟩ := exists_of_map_ok h
  obtain ⟨htook, rfl⟩ := took_take hbytes
  rw [Wire.digits_value]
  exact ⟨htook, Wire.value_lt bytes⟩

theorem took_u8 {v : UInt8} (h : u8 r = .ok v r') : r.Took r' (Wire.u8 v) := by
  obtain ⟨n, hn, rfl⟩ := exists_of_map_ok h
  obtain ⟨htook, hlt⟩ := took_word hn
  rwa [Wire.u8, Nat.toUInt8_eq, UInt8.toNat_ofNat_of_lt' hlt]

theorem took_u16 {v : UInt16} (h : u16 r = .ok v r') : r.Took r' (Wire.u16 v) := by
  obtain ⟨n, hn, rfl⟩ := exists_of_map_ok h
  obtain ⟨htook, hlt⟩ := took_word hn
  rwa [Wire.u16, Nat.toUInt16_eq, UInt16.toNat_ofNat_of_lt' hlt]

theorem took_u32 {v : UInt32} (h : u32 r = .ok v r') : r.Took r' (Wire.u32 v) := by
  obtain ⟨n, hn, rfl⟩ := exists_of_map_ok h
  obtain ⟨htook, hlt⟩ := took_word hn
  rwa [Wire.u32, Nat.toUInt32_eq, UInt32.toNat_ofNat_of_lt' hlt]

/-- Two halves are the digits of the whole. -/
theorem digits_halves {low high : Nat} (hlow : low < 4294967296) :
    Wire.digits 8 (low + 4294967296 * high) = Wire.digits 4 low ++ Wire.digits 4 high := by
  have hmod : (low + 4294967296 * high) % Wire.range 4 = low := by
    rw [show Wire.range 4 = 4294967296 from rfl]
    omega
  have hdiv : (low + 4294967296 * high) / Wire.range 4 = high := by
    rw [show Wire.range 4 = 4294967296 from rfl]
    omega
  rw [show (8 : Nat) = 4 + 4 from rfl, Wire.digits_add, hdiv, ← Wire.digits_mod, hmod]

theorem took_u64 {v : UInt64} (h : u64 r = .ok v r') : r.Took r' (Wire.u64 v) := by
  obtain ⟨low, r₁, hlow, h⟩ := exists_of_bind_ok h
  obtain ⟨high, r₂, hhigh, h⟩ := exists_of_bind_ok h
  cases h
  obtain ⟨htook, hlt⟩ := took_word hlow
  obtain ⟨htook', hlt'⟩ := took_word hhigh
  have hvalue : low + 4294967296 * high < 18446744073709551616 := by
    have hlow : low < 4294967296 := hlt
    have hhigh : high < 4294967296 := hlt'
    omega
  rw [Wire.u64, Nat.toUInt64_eq, UInt64.toNat_ofNat_of_lt' hvalue, digits_halves hlt]
  exact htook.trans htook'

theorem took_i32 {v : Int32} (h : i32 r = .ok v r') : r.Took r' (Wire.i32 v) := by
  obtain ⟨w, hw, rfl⟩ := exists_of_map_ok h
  exact took_u32 hw

theorem took_i64 {v : Int64} (h : i64 r = .ok v r') : r.Took r' (Wire.i64 v) := by
  obtain ⟨w, hw, rfl⟩ := exists_of_map_ok h
  exact took_u64 hw

theorem took_number {x : Number} (h : number r = .ok x r') : r.Took r' (Wire.number x) := by
  obtain ⟨w, hw, rfl⟩ := exists_of_map_ok h
  exact took_u64 hw

end Read

end Bytecode
