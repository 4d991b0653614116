import Bytecode.Wire

/-!
# Write buffers

A buffer holds the bytes written so far. Four bytes that are already written can be overwritten,
so that a word may be reserved before its value is known.

## Main definitions

* `Wire.overwrite`: bytes with another word at an offset
* `Buffer`: bytes written so far
* `Buffer.append`, `Buffer.appendName`: writing at the end
* `Buffer.patch`: overwriting four bytes

## Main results

* `Buffer.bytes_append`: what is written comes last
* `Buffer.patch_eq_ok_iff`: a word can be overwritten once it is written
* `Buffer.size_patch`: overwriting keeps the size
-/

namespace Bytecode

/-- The bytes with another word in place of the four at `offset`. -/
def Wire.overwrite (bytes : Bytes) (offset : Nat) (v : UInt32) : Bytes :=
  bytes.take offset ++ Wire.u32 v ++ bytes.drop (offset + 4)

@[simp]
theorem Wire.length_overwrite {bytes : Bytes} {offset : Nat} (v : UInt32)
    (h : offset + 4 ≤ bytes.length) : (Wire.overwrite bytes offset v).length = bytes.length := by
  simp only [Wire.overwrite, Wire.u32, List.length_append, List.length_take, List.length_drop,
    Wire.length_digits]
  omega

/-- Bytes that are written later are not overwritten. -/
theorem Wire.overwrite_append {bytes : Bytes} {offset : Nat} (v : UInt32) (more : Bytes)
    (h : offset + 4 ≤ bytes.length) :
    Wire.overwrite (bytes ++ more) offset v = Wire.overwrite bytes offset v ++ more := by
  rw [Wire.overwrite, Wire.overwrite, List.take_append_of_le_length (by omega),
    List.drop_append_of_le_length h, List.append_assoc _ (List.drop _ _)]

/-- Nor are those that were written before. -/
theorem Wire.append_overwrite (before bytes : Bytes) (offset : Nat) (v : UInt32) :
    Wire.overwrite (before ++ bytes) (before.length + offset) v =
      before ++ Wire.overwrite bytes offset v := by
  rw [Wire.overwrite, Wire.overwrite, Nat.add_assoc, List.take_length_add_append,
    List.drop_length_add_append, List.append_assoc, List.append_assoc, List.append_assoc]

/-- Bytes written so far. -/
structure Buffer where
  /-- The bytes, newest first. -/
  newest : Bytes
  /-- The number of bytes written. -/
  size : Nat
  size_eq : size = newest.length

namespace Buffer

/-- A buffer to which nothing is written. -/
def empty : Buffer := ⟨[], 0, List.length_nil.symm⟩

/-- The bytes in order. -/
def bytes (b : Buffer) : Bytes := b.newest.reverse

/-- A buffer with the given bytes. -/
def ofBytes (bytes : Bytes) : Buffer := ⟨bytes.reverse, bytes.length, List.length_reverse.symm⟩

/-- Writes bytes at the end. -/
def append (b : Buffer) (bytes : Bytes) : Buffer where
  newest := bytes.reverse ++ b.newest
  size := b.size + bytes.length
  size_eq := by rw [List.length_append, List.length_reverse, b.size_eq, Nat.add_comm]

/-- Writes a name at the end. -/
def appendName (b : Buffer) (name : Text) : Except Error Buffer :=
  (Wire.name name).map b.append

/-- Overwrites the four bytes at `offset`. -/
def patch (b : Buffer) (offset : Nat) (v : UInt32) : Except Error Buffer :=
  if b.size < offset + 4 then .error (.inconsistent .patchOutside)
  else .ok (.ofBytes (Wire.overwrite b.bytes offset v))

@[simp] theorem length_bytes (b : Buffer) : b.bytes.length = b.size := by
  rw [bytes, List.length_reverse, b.size_eq]

@[simp] theorem bytes_empty : empty.bytes = [] := rfl

@[simp] theorem bytes_ofBytes (bytes : Bytes) : (ofBytes bytes).bytes = bytes :=
  List.reverse_reverse bytes

@[simp]
theorem bytes_append (b : Buffer) (bytes : Bytes) : (b.append bytes).bytes = b.bytes ++ bytes := by
  rw [Buffer.bytes, append, List.reverse_append, List.reverse_reverse, Buffer.bytes]

@[simp]
theorem size_append (b : Buffer) (bytes : Bytes) :
    (b.append bytes).size = b.size + bytes.length := rfl

/-- A word can be overwritten once all of it is written. -/
theorem patch_eq_ok_iff {b b' : Buffer} {offset : Nat} {v : UInt32} :
    b.patch offset v = .ok b' ↔
      offset + 4 ≤ b.size ∧ b' = .ofBytes (Wire.overwrite b.bytes offset v) := by
  unfold patch
  split
  · next hshort =>
    constructor
    · intro h
      cases h
    · intro h
      omega
  · next hlong =>
    constructor
    · intro h
      cases h
      exact ⟨Nat.le_of_not_lt hlong, rfl⟩
    · rintro ⟨-, rfl⟩
      rfl

/-- Overwriting keeps the size. -/
theorem size_patch {b b' : Buffer} {offset : Nat} {v : UInt32} (h : b.patch offset v = .ok b') :
    b'.size = b.size := by
  obtain ⟨hinside, rfl⟩ := patch_eq_ok_iff.mp h
  rw [← length_bytes] at hinside
  rw [← length_bytes b, ← Wire.length_overwrite v hinside, ofBytes]

end Buffer

end Bytecode
