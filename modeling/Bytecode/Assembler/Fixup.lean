import Bytecode.Instruction
import Bytecode.Wire.Buffer

/-!
# Missing offsets

A jump to a label that is not bound yet is written with zeros in place of the offset, and the place
is noted as a fixup. Once the offset is known, it is written over the zeros.

## Main definitions

* `Fixup`: a place in the code where an offset is missing
* `Fixup.patch`: writes offsets to their places
* `Fixup.fill`: the bytes after that
* `Fixup.Fillable`: code in which the fixups stand for the offsets of jumps

## Main results

* `Fixup.exists_patch`: offsets can be written to all places
* `Fixup.Fillable.append`, `Fixup.Fillable.noted`: one more instruction keeps code fillable, without
  or with an offset that is missing
* `Fixup.Fillable.patched`: so does writing the offsets
-/

namespace Bytecode

/-- A place in the code where the offset of a label is missing. -/
structure Fixup where
  position : Nat
  label : Nat
  deriving DecidableEq, Repr

/-- The offset in a jump follows its operation byte and goes up to its end. -/
theorem Instruction.overwrite_encode {α : Type} {i : Instruction α} {label : α}
    (h : i.target? = some label) (f g : α → UInt32) :
    Wire.overwrite (i.map f).encode 1 (g label) = (i.map g).encode ∧ i.size = 5 := by
  obtain ⟨op, operand⟩ := i
  cases op <;> cases h <;> exact ⟨rfl, rfl⟩

namespace Fixup

variable {offsetOf target : Nat → UInt32} {code code' : Buffer} {bytes : Bytes}
  {fixups : List Fixup}

/-- Writes offsets to the given places, which are newest first; the oldest one comes first. -/
def patch (offsetOf : Nat → UInt32) (code : Buffer) : List Fixup → Except Error Buffer
  | [] => .ok code
  | fixup :: older => do
    let patched ← patch offsetOf code older
    patched.patch fixup.position (offsetOf fixup.label)

/-- The bytes with offsets at the given places. -/
def fill (offsetOf : Nat → UInt32) (bytes : Bytes) : List Fixup → Bytes
  | [] => bytes
  | fixup :: older =>
    Wire.overwrite (fill offsetOf bytes older) fixup.position (offsetOf fixup.label)

theorem length_fill (h : ∀ fixup ∈ fixups, fixup.position + 4 ≤ bytes.length) :
    (fill offsetOf bytes fixups).length = bytes.length := by
  induction fixups with
  | nil => rfl
  | cons fixup older ih =>
    obtain ⟨hfixup, holder⟩ := List.forall_mem_cons.mp h
    rw [fill, Wire.length_overwrite _ ((ih holder).symm ▸ hfixup), ih holder]

/-- Offsets can be filled in before or after more is written. -/
theorem fill_append (more : Bytes) (h : ∀ fixup ∈ fixups, fixup.position + 4 ≤ bytes.length) :
    fill offsetOf (bytes ++ more) fixups = fill offsetOf bytes fixups ++ more := by
  induction fixups with
  | nil => rfl
  | cons fixup older ih =>
    obtain ⟨hfixup, holder⟩ := List.forall_mem_cons.mp h
    rw [fill, ih holder, Wire.overwrite_append _ _ ((length_fill holder).symm ▸ hfixup), fill]

/-- Offsets can be written to places within the code, and the size stays. -/
theorem exists_patch (offsetOf : Nat → UInt32)
    (h : ∀ fixup ∈ fixups, fixup.position + 4 ≤ code.size) :
    ∃ code', patch offsetOf code fixups = .ok code' ∧ code'.size = code.size ∧
      code'.bytes = fill offsetOf code.bytes fixups := by
  induction fixups with
  | nil => exact ⟨code, rfl, rfl, rfl⟩
  | cons fixup older ih =>
    obtain ⟨hfixup, holder⟩ := List.forall_mem_cons.mp h
    obtain ⟨before, hbefore, hsize, hbytes⟩ := ih holder
    have hpatch : before.patch fixup.position (offsetOf fixup.label) =
        .ok (.ofBytes (fill offsetOf code.bytes (fixup :: older))) :=
      Buffer.patch_eq_ok_iff.mpr ⟨hsize ▸ hfixup, by rw [fill, hbytes]⟩
    refine ⟨_, ?_, (Buffer.size_patch hpatch).trans hsize, Buffer.bytes_ofBytes _⟩
    rw [patch, hbefore]
    exact hpatch

/-- Code in which the fixups stand for the offsets of jumps: with offsets in their places, it is
made of whole instructions. -/
structure Fillable (code : Buffer) (fixups : List Fixup) : Prop where
  inside : ∀ fixup ∈ fixups, fixup.position + 4 ≤ code.size
  encodes : ∀ offsetOf, ∃ written, fill offsetOf code.bytes fixups = Code.encode written

namespace Fillable

theorem empty : Fillable .empty [] :=
  ⟨fun _ h => (List.not_mem_nil h).elim, fun _ => ⟨[], rfl⟩⟩

theorem fill_append (h : Fillable code fixups) (offsetOf : Nat → UInt32) (more : Bytes) :
    fill offsetOf (code.append more).bytes fixups = fill offsetOf code.bytes fixups ++ more := by
  rw [Buffer.bytes_append, Fixup.fill_append more (by simpa using h.inside)]

/-- The place of an offset in a jump that is written next. -/
theorem fill_noted (h : Fillable code fixups) {i : Instruction Nat} {label : Nat}
    (hi : i.target? = some label) (f offsetOf : Nat → UInt32) :
    fill offsetOf (code.append (i.map f).encode).bytes (⟨code.size + 1, label⟩ :: fixups) =
      fill offsetOf code.bytes fixups ++ (i.map offsetOf).encode := by
  have hlength : (fill offsetOf code.bytes fixups).length = code.size := by
    rw [length_fill (by simpa using h.inside), Buffer.length_bytes]
  rw [fill, h.fill_append, ← hlength, Wire.append_overwrite, (i.overwrite_encode hi f offsetOf).1]

theorem append (h : Fillable code fixups) (i : Instruction UInt32) :
    Fillable (code.append i.encode) fixups where
  inside fixup hfixup := Nat.le_trans (h.inside fixup hfixup) (Nat.le_add_right _ _)
  encodes offsetOf := by
    obtain ⟨written, hwritten⟩ := h.encodes offsetOf
    refine ⟨written ++ [i], ?_⟩
    rw [h.fill_append, hwritten, Code.encode_concat]

theorem noted (h : Fillable code fixups) {i : Instruction Nat} {label : Nat}
    (hi : i.target? = some label) (f : Nat → UInt32) :
    Fillable (code.append (i.map f).encode) (⟨code.size + 1, label⟩ :: fixups) where
  inside fixup hfixup := by
    have hfive := (i.overwrite_encode hi f f).2
    rw [Buffer.size_append, Instruction.length_encode, Instruction.size_map, hfive]
    rcases List.mem_cons.mp hfixup with rfl | hold
    · exact Nat.le_refl _
    · exact Nat.le_trans (h.inside fixup hold) (Nat.le_add_right _ _)
  encodes offsetOf := by
    obtain ⟨written, hwritten⟩ := h.encodes offsetOf
    refine ⟨written ++ [i.map offsetOf], ?_⟩
    rw [h.fill_noted hi, hwritten, Code.encode_concat]

theorem size_patched (h : Fillable code fixups) (hpatch : patch offsetOf code fixups = .ok code') :
    code'.size = code.size := by
  obtain ⟨patched, hpatched, hsize, -⟩ := exists_patch offsetOf h.inside
  cases hpatch.symm.trans hpatched
  exact hsize

theorem bytes_patched (h : Fillable code fixups)
    (hpatch : patch offsetOf code fixups = .ok code') :
    code'.bytes = fill offsetOf code.bytes fixups := by
  obtain ⟨patched, hpatched, -, hbytes⟩ := exists_patch offsetOf h.inside
  cases hpatch.symm.trans hpatched
  exact hbytes

theorem patched (h : Fillable code fixups) (hpatch : patch offsetOf code fixups = .ok code') :
    Fillable code' [] where
  inside _ hfixup := (List.not_mem_nil hfixup).elim
  encodes _ := by
    obtain ⟨written, hwritten⟩ := h.encodes offsetOf
    exact ⟨written, (h.bytes_patched hpatch).trans hwritten⟩

end Fillable

end Fixup

end Bytecode
