import Bytecode.Wire

/-!
# Readers

A reader is a position in a byte sequence. Every read either takes the bytes it needs or fails
with the position at which they are missing; a failed read of a composite value leaves the reader
after the parts that were read.

## Main definitions

* `Reader`: the bytes to come and their offset
* `Read`: a read that may fail, with the reader it leaves behind
* `Read.take`: the one read from which all others are built
* `Read.collect`: a given number of equal reads
-/

namespace Bytecode

/-- The bytes to come, how many they are, and how many came before. -/
structure Reader where
  pos : Nat
  rest : Bytes
  remaining : Nat
  remaining_eq : remaining = rest.length

namespace Reader

/-- A reader at the start of a byte sequence. -/
def ofBytes (bytes : Bytes) : Reader := ⟨0, bytes, bytes.length, rfl⟩

/-- The reader after `n` more bytes. -/
def advance (r : Reader) (n : Nat) : Reader where
  pos := r.pos + n
  rest := r.rest.drop n
  remaining := r.remaining - n
  remaining_eq := by simp [r.remaining_eq]

/-- Whether all bytes are read. -/
def atEnd (r : Reader) : Bool := r.remaining == 0

@[simp] theorem pos_ofBytes (bytes : Bytes) : (ofBytes bytes).pos = 0 := rfl
@[simp] theorem rest_ofBytes (bytes : Bytes) : (ofBytes bytes).rest = bytes := rfl
@[simp] theorem pos_advance (r : Reader) (n : Nat) : (r.advance n).pos = r.pos + n := rfl
@[simp] theorem rest_advance (r : Reader) (n : Nat) : (r.advance n).rest = r.rest.drop n := rfl

@[ext]
theorem ext {r s : Reader} (hpos : r.pos = s.pos) (hrest : r.rest = s.rest) : r = s := by
  obtain ⟨_, _, _, rfl⟩ := r
  obtain ⟨_, _, _, rfl⟩ := s
  cases hpos
  cases hrest
  rfl

end Reader

/-- A read: a value or a failure, and the reader after it. -/
abbrev Read (α : Type) := EStateM Error Reader α

namespace Read

/-- The next `n` bytes. -/
def take (n : Nat) : Read Bytes := fun r =>
  if r.remaining < n then .error (.format (.truncated r.pos)) r
  else .ok (r.rest.take n) (r.advance n)

/-- A number in `width` bytes. -/
def word (width : Nat) : Read Nat := Wire.value <$> take width

/-- One byte. -/
def u8 : Read UInt8 := Nat.toUInt8 <$> word 1

/-- A number in two bytes. -/
def u16 : Read UInt16 := Nat.toUInt16 <$> word 2

/-- A number in four bytes. -/
def u32 : Read UInt32 := Nat.toUInt32 <$> word 4

/-- A number in eight bytes, read in two halves. -/
def u64 : Read UInt64 := do
  let low ← word 4
  let high ← word 4
  return (low + 0x100000000 * high).toUInt64

/-- A signed number in four bytes. -/
def i32 : Read Int32 := UInt32.toInt32 <$> u32

/-- A signed number in eight bytes. -/
def i64 : Read Int64 := UInt64.toInt64 <$> u64

/-- A number by its bit pattern. -/
def number : Read Number := Number.mk <$> u64

/-- A name: its length in two bytes, then its bytes. -/
def name : Read Text := do
  let length ← u16
  take length.toNat

/-- Reads `n` more items after those in `items`, which are kept last first. -/
def collectFrom {α : Type} (item : Read α) : (n : Nat) → (items : List α) → Read (List α)
  | 0, items => return items.reverse
  | n + 1, items => do
    let x ← item
    collectFrom item n (x :: items)

/-- Reads `n` items. -/
def collect {α : Type} (n : Nat) (item : Read α) : Read (List α) := collectFrom item n []

end Read

end Bytecode
