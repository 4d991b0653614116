import Bytecode.Error
import Bytecode.Number

/-!
# Words on the wire

Numbers are written with a fixed count of bytes, the least significant byte first. Writing and
reading recurse on that count, so every width is covered by the same two lemmas. A name is its
length in two bytes and then its bytes.

## Main definitions

* `Wire.digits`, `Wire.value`: base 256, least significant digit first
* `Wire.range`: how many numbers a count of digits can spell
* `Wire.u8` to `Wire.u64`, `Wire.i32`, `Wire.i64`, `Wire.number`: the words
* `Wire.maxName`, `Wire.requireName`: the longest name
* `Wire.name`: a name with its length

## Main results

* `Wire.value_digits`: the digits of a number spell it, up to their range
* `Wire.digits_value`: digits are determined by the number they spell
-/

namespace Bytecode.Wire

/-- The lowest `width` digits of `n` in base 256, least significant first. -/
def digits : (width : Nat) → (n : Nat) → Bytes
  | 0, _ => []
  | width + 1, n => n.toUInt8 :: digits width (n / 256)

/-- The number that digits in base 256 spell, least significant first. -/
def value : Bytes → Nat
  | [] => 0
  | b :: rest => b.toNat + 256 * value rest

/-- How many numbers have `width` digits in base 256. -/
def range : (width : Nat) → Nat
  | 0 => 1
  | width + 1 => 256 * range width

@[simp]
theorem length_digits (width n : Nat) : (digits width n).length = width := by
  induction width generalizing n with
  | zero => rfl
  | succ width ih => simp [digits, ih]

theorem value_digits (width n : Nat) : value (digits width n) = n % range width := by
  induction width generalizing n with
  | zero => simp [digits, value, range, Nat.mod_one]
  | succ width ih =>
    simp only [digits, value, range, ih]
    rw [Nat.mod_mul]
    simp

theorem digits_value (bytes : Bytes) : digits bytes.length (value bytes) = bytes := by
  induction bytes with
  | nil => rfl
  | cons b rest ih =>
    have hb : b.toNat < 256 := b.toNat_lt
    have hdiv : (b.toNat + 256 * value rest) / 256 = value rest := by omega
    have hmod : (b.toNat + 256 * value rest).toUInt8 = b := by
      apply UInt8.toNat_inj.mp
      simp only [Nat.toUInt8_eq, UInt8.toNat_ofNat']
      omega
    simp only [List.length_cons, value, digits, hdiv, hmod, ih]

theorem value_lt (bytes : Bytes) : value bytes < range bytes.length := by
  induction bytes with
  | nil => simp [value, range]
  | cons b rest ih =>
    have hb : b.toNat < 256 := b.toNat_lt
    simp only [value, List.length_cons, range]
    omega

/-- One byte. -/
def u8 (v : UInt8) : Bytes := digits 1 v.toNat

/-- Two bytes. -/
def u16 (v : UInt16) : Bytes := digits 2 v.toNat

/-- Four bytes. -/
def u32 (v : UInt32) : Bytes := digits 4 v.toNat

/-- Eight bytes. -/
def u64 (v : UInt64) : Bytes := digits 8 v.toNat

/-- A signed number in four bytes, in two's complement. -/
def i32 (v : Int32) : Bytes := u32 v.toUInt32

/-- A signed number in eight bytes, in two's complement. -/
def i64 (v : Int64) : Bytes := u64 v.toUInt64

/-- The bit pattern of a number. -/
def number (x : Number) : Bytes := u64 x.bits

/-- The byte of a type. -/
def type (t : ValueType) : Bytes := u8 t.toByte

/-- A truth value as one byte. -/
def flag (b : Bool) : Bytes := u8 (if b then 1 else 0)

/-- The length of the longest name, and the largest count of anything in a unit. -/
def maxName : Nat := 65535

/-- Refuses a name that is too long to be written, on behalf of `function`. -/
def requireName (name function : Text) : Except Error Unit :=
  if maxName < name.length then .error (.unsupported function (.name name.length)) else .ok ()

/-- A name: its length in two bytes, then its bytes. -/
def name (t : Text) : Except Error Bytes := do
  requireName t []
  return u16 t.length.toUInt16 ++ t

end Bytecode.Wire
