import Mathlib
import Bytecode.Wire.Reader

/-!
# Reading back what was written

`Parses read pos bytes rest x` says that `read`, at offset `pos` of an input that goes on with
`bytes` and then `rest`, takes exactly `bytes` and gives `x`. Every word of the format is read back
from its encoding, whatever follows it, and reads in sequence take encodings in sequence.

## Main definitions

* `Reader.atOffset pos rest`: a reader at offset `pos` with the bytes `rest` to come
* `Read.Parses`: a read takes given bytes and gives a value

## Main results

* `Read.Parses.bind`: reads in sequence
* `Read.parses_word`: a number is read back from its digits
* `Read.parses_name`: a name is read back from its encoding
* `Read.parses_collect`: a counted list is read back item by item
-/

namespace Bytecode

/-- A reader at offset `pos` with the bytes `rest` to come. -/
def Reader.atOffset (pos : Nat) (rest : Bytes) : Reader := { ofBytes rest with pos }

@[simp] theorem Reader.pos_atOffset (pos : Nat) (rest : Bytes) :
    (atOffset pos rest).pos = pos := rfl

@[simp] theorem Reader.rest_atOffset (pos : Nat) (rest : Bytes) :
    (atOffset pos rest).rest = rest := rfl

@[simp] theorem Reader.remaining_atOffset (pos : Nat) (rest : Bytes) :
    (atOffset pos rest).remaining = rest.length := rfl

theorem Reader.ofBytes_eq_atOffset (bytes : Bytes) : ofBytes bytes = atOffset 0 bytes := rfl

@[simp] theorem Reader.atEnd_atOffset (pos : Nat) (rest : Bytes) :
    (atOffset pos rest).atEnd = rest.isEmpty := by
  cases rest <;> simp [atEnd]

namespace Wire

/-- The digits of a number split into its lower and its upper ones. -/
theorem digits_add (low high n : Nat) :
    digits (low + high) n = digits low n ++ digits high (n / range low) := by
  induction low generalizing n with
  | zero => simp [digits, range]
  | succ low ih =>
    rw [Nat.add_right_comm, digits, digits, ih, List.cons_append, range, Nat.div_div_eq_div_mul]

/-- Digits beyond those written do not matter. -/
theorem digits_mod (width n : Nat) : digits width (n % range width) = digits width n := by
  have h := digits_value (digits width n)
  rwa [length_digits, value_digits] at h

@[simp] theorem length_u16 (v : UInt16) : (u16 v).length = 2 := length_digits 2 _

@[simp] theorem length_u32 (v : UInt32) : (u32 v).length = 4 := length_digits 4 _

@[simp] theorem length_type (t : ValueType) : (type t).length = 1 := length_digits 1 _

theorem length_le_of_requireName {name function : Text} {x : Unit}
    (h : requireName name function = .ok x) : name.length ≤ 65535 := by
  unfold requireName at h
  split at h
  · cases h
  · next hshort => exact Nat.not_lt.mp hshort

end Wire

namespace Read

variable {α β : Type} {pos : Nat} {bytes more rest : Bytes} {x : α} {y : β}

/-- The read takes `bytes` at offset `pos`, with `rest` to come after them, and gives `x`. -/
def Parses (read : Read α) (pos : Nat) (bytes rest : Bytes) (x : α) : Prop :=
  read (.atOffset pos (bytes ++ rest)) = .ok x (.atOffset (pos + bytes.length) rest)

namespace Parses

theorem pure : Parses (Pure.pure x) pos [] rest x := rfl

/-- Reads in sequence take encodings in sequence. -/
theorem bind {read : Read α} {next : α → Read β} (h : Parses read pos bytes (more ++ rest) x)
    (hnext : Parses (next x) (pos + bytes.length) more rest y) :
    Parses (read >>= next) pos (bytes ++ more) rest y := by
  unfold Parses at *
  simp only [Bind.bind, EStateM.bind, List.append_assoc, h, hnext, List.length_append,
    Nat.add_assoc]

/-- A read whose last step takes nothing more. -/
theorem bind_pure {read : Read α} {next : α → Read β} (h : Parses read pos bytes rest x)
    (hnext : next x = Pure.pure y) : Parses (read >>= next) pos bytes rest y := by
  have hx : Parses read pos bytes ([] ++ rest) x := h
  have hy : Parses (next x) (pos + bytes.length) [] rest y := by rw [hnext]; exact pure
  simpa using hx.bind hy

/-- A read that looks at the reader first. -/
theorem get {next : Reader → Read β}
    (h : Parses (next (.atOffset pos (bytes ++ rest))) pos bytes rest y) :
    Parses (MonadState.get >>= next) pos bytes rest y := h

theorem map {read : Read α} (f : α → β) (h : Parses read pos bytes rest x) :
    Parses (f <$> read) pos bytes rest (f x) := by
  unfold Parses at *
  simp only [Functor.map, EStateM.map, h]

end Parses

theorem parses_take (bytes rest : Bytes) : Parses (take bytes.length) pos bytes rest bytes := by
  have hlen : ¬ (bytes ++ rest).length < bytes.length := by simp
  simp only [Parses, take, Reader.remaining_atOffset, hlen, if_false, Reader.rest_atOffset,
    List.take_left]
  congr 1
  exact Reader.ext rfl (by simp [Reader.advance])

/-- A number is read back from its digits. -/
theorem parses_word {width n : Nat} (h : n < Wire.range width) :
    Parses (word width) pos (Wire.digits width n) rest n := by
  have htake : Parses (take width) pos (Wire.digits width n) rest (Wire.digits width n) := by
    have h := @parses_take pos (Wire.digits width n) rest
    rwa [Wire.length_digits] at h
  have hword := htake.map Wire.value
  rwa [Wire.value_digits, Nat.mod_eq_of_lt h] at hword

theorem parses_u8 (v : UInt8) : Parses u8 pos (Wire.u8 v) rest v := by
  have h : Parses (word 1) pos (Wire.u8 v) rest v.toNat := parses_word v.toNat_lt
  simpa [u8] using h.map Nat.toUInt8

theorem parses_u16 (v : UInt16) : Parses u16 pos (Wire.u16 v) rest v := by
  have h : Parses (word 2) pos (Wire.u16 v) rest v.toNat := parses_word v.toNat_lt
  simpa [u16] using h.map Nat.toUInt16

theorem parses_u32 (v : UInt32) : Parses u32 pos (Wire.u32 v) rest v := by
  have h : Parses (word 4) pos (Wire.u32 v) rest v.toNat := parses_word v.toNat_lt
  simpa [u32] using h.map Nat.toUInt32

theorem parses_u64 (v : UInt64) : Parses u64 pos (Wire.u64 v) rest v := by
  -- eight bytes are read as two words of four, the lower one first
  have hv : v.toNat < 4294967296 * 4294967296 := v.toNat_lt
  have hsplit : Wire.u64 v = Wire.digits 4 (v.toNat % 4294967296) ++
      Wire.digits 4 (v.toNat / 4294967296) := by
    rw [show (4294967296 : Nat) = Wire.range 4 from rfl, Wire.digits_mod]
    exact Wire.digits_add 4 4 v.toNat
  rw [hsplit]
  refine Parses.bind (parses_word (Nat.mod_lt _ (by decide))) ?_
  refine Parses.bind_pure (parses_word (Nat.div_lt_of_lt_mul hv)) ?_
  rw [Nat.mod_add_div, Nat.toUInt64_eq, UInt64.ofNat_toNat]

theorem parses_i32 (v : Int32) : Parses i32 pos (Wire.i32 v) rest v :=
  (parses_u32 v.toUInt32).map UInt32.toInt32

theorem parses_i64 (v : Int64) : Parses i64 pos (Wire.i64 v) rest v :=
  (parses_u64 v.toUInt64).map UInt64.toInt64

theorem parses_number (x : Number) : Parses number pos (Wire.number x) rest x :=
  (parses_u64 x.bits).map Number.mk

/-- A name is read back from its encoding. -/
theorem parses_name {t : Text} (h : Wire.name t = .ok bytes) : Parses name pos bytes rest t := by
  unfold Wire.name Wire.requireName at h
  split at h
  · cases h
  · next hlen =>
    cases h
    have hcount : t.length.toUInt16.toNat = t.length := by
      simp only [Wire.maxName, Nat.toUInt16_eq, UInt16.toNat_ofNat'] at hlen ⊢
      omega
    refine Parses.bind (parses_u16 _) ?_
    rw [hcount]
    exact parses_take t rest

/-- Items after those already read, each from its own bytes. -/
theorem parses_collectFrom {item : Read α} {xs : List α} {parts : List Bytes} (done : List α)
    (h : List.Forall₂ (fun x part => ∀ pos rest, Parses item pos part rest x) xs parts) :
    Parses (collectFrom item xs.length done) pos parts.flatten rest (done.reverse ++ xs) := by
  induction h generalizing pos done with
  | nil => simpa [collectFrom] using Parses.pure
  | @cons x part xs parts hx _ ih =>
    refine Parses.bind (hx _ _) ?_
    simpa using ih (x :: done)

/-- A counted list is read back item by item. -/
theorem parses_collect {item : Read α} {xs : List α} {parts : List Bytes}
    (h : List.Forall₂ (fun x part => ∀ pos rest, Parses item pos part rest x) xs parts) :
    Parses (collect xs.length item) pos parts.flatten rest xs := by
  simpa [collect] using parses_collectFrom [] h

/-- A counted list whose items are written one after the other. -/
theorem parses_collect_flatMap {item : Read α} {encode : α → Bytes} {xs : List α}
    (h : ∀ x ∈ xs, ∀ pos rest, Parses item pos (encode x) rest x) :
    Parses (collect xs.length item) pos (xs.flatMap encode) rest xs := by
  rw [List.flatMap_def]
  refine parses_collect ?_
  rw [List.forall₂_map_right_iff, List.forall₂_same]
  exact h

end Read

end Bytecode
