import Mathlib
import Bytecode.Assembler
import Bytecode.Proofs.Instruction.Layout
import Bytecode.Proofs.Outcome

/-!
# Patched code

The bytes of code under assembly have zeros where an offset is missing. Whatever offsets the labels
get in the end, writing them over the zeros gives the encoding of the instructions with these
offsets. When a jump is written, nobody knows yet where its label will be bound, so the invariant
speaks of all offsets that agree with the labels bound so far: an instruction adds its own place,
and a label that is bound leaves fewer offsets to speak of. When the code is completed, the labels
of all jumps are bound and only one choice is left.

## Main definitions

* `Assembler.Admits`: offsets that agree with the labels bound so far
* `Assembler.Coded`: the bytes become the instructions, once the offsets are filled in
* `Assembler.resolved`: the instructions with offsets in place of labels
* `Assembler.assembled`: finished code, said of the instructions
* `Assembler.completed`: the assembler with other bytes and no offset missing

## Main results

* `Assembler.Coded.append`: an instruction keeps code so
* `Assembler.Coded.complete`: so does completing it
* `Assembler.Coded.finish_eq`: patched code is the encoding of the resolved instructions
* `Assembler.finish_encodes`: finished code is always made of whole instructions
-/

namespace Bytecode

/-- An instruction depends on the offset of the label that it jumps to, and on no other. -/
theorem Instruction.map_congr {α β : Type} {f g : α → β} {i : Instruction α}
    (h : ∀ label, i.target? = some label → f label = g label) : i.map f = i.map g := by
  obtain ⟨op, operand⟩ := i
  cases op with
  | jump => exact congrArg (Instruction.mk .jump) (h operand rfl)
  | ifTrue => exact congrArg (Instruction.mk .ifTrue) (h operand rfl)
  | ifFalse => exact congrArg (Instruction.mk .ifFalse) (h operand rfl)
  | _ => rfl

namespace Assembler

variable {a b done : Assembler} {i : Instruction Nat} {e : Error} {bytes : Bytes}

@[simp] theorem size_instructions (a : Assembler) : Code.size a.instructions = a.size := by
  rw [instructions, Code.size_reverse, size, a.size_eq]

@[simp] theorem size_append (a : Assembler) (i : Instruction Nat) :
    (a.append i).size = a.size + i.size := by
  simp [append, size]

theorem mem_instructions : i ∈ a.instructions ↔ i ∈ a.newest := List.mem_reverse

/-! ### Code under assembly -/

/-- Offsets that agree with the labels bound so far. -/
def Admits (a : Assembler) (target : Nat → UInt32) : Prop :=
  ∀ label o, a.offset? label = some o → target label = o.toUInt32

theorem admits_offsetOf (a : Assembler) : a.Admits a.offsetOf := by
  intro label o ho
  rw [offsetOf, ho, Option.getD_some]

/-- The bytes become the encoded instructions, once the missing offsets are filled in. -/
def Coded (a : Assembler) : Prop :=
  ∀ target, a.Admits target → Fixup.fill target a.code.bytes a.fixups =
    Code.encode (a.instructions.map (Instruction.map target))

/-- Code that is not written to stays so, as long as bound labels keep their offsets. -/
theorem Coded.mono (h : a.Coded) (hcode : b.code = a.code) (hfixups : b.fixups = a.fixups)
    (hnewest : b.newest = a.newest)
    (hoffset : ∀ label o, a.offset? label = some o → b.offset? label = some o) : b.Coded := by
  intro target htarget
  rw [hcode, hfixups, instructions, hnewest]
  exact h target fun label o ho => htarget label o (hoffset label o ho)

/-- An instruction without a missing offset is written as it will stay. -/
theorem map_offsetOf_of_missing? (hknown : a.missing? i = none) {target : Nat → UInt32}
    (htarget : a.Admits target) : i.map a.offsetOf = i.map target := by
  refine Instruction.map_congr fun label hlabel => ?_
  have hbound : a.offset? label ≠ none := by
    simpa [missing?, hlabel, Option.filter] using hknown
  obtain ⟨o, ho⟩ := Option.ne_none_iff_exists'.mp hbound
  exact (a.admits_offsetOf label o ho).trans (htarget label o ho).symm

/-- **One more instruction.** An offset that is known is written at once; a missing one has its
place noted. -/
theorem Coded.append (h : a.Coded) (i : Instruction Nat) : (a.append i).Coded := by
  intro target htarget
  have hwritten : Fixup.fill target (a.append i).code.bytes (a.append i).fixups =
      Fixup.fill target a.code.bytes a.fixups ++ (i.map target).encode := by
    show Fixup.fill target (a.code.append (i.map a.offsetOf).encode).bytes (a.noted i) = _
    unfold noted
    -- only a missing offset depends on labels that are bound later
    split
    · next label hmissing =>
      exact a.fillable.fill_noted (Option.eq_some_of_filter_eq_some hmissing) _ target
    · next hknown => rw [a.fillable.fill_append, map_offsetOf_of_missing? hknown htarget]
  rw [hwritten, h target htarget, instructions_append, List.map_append, List.map_singleton,
    Code.encode_concat]

/-! ### Finished code -/

/-- The instructions with offsets in place of labels. -/
def resolved (a : Assembler) : List (Instruction UInt32) :=
  a.instructions.map (Instruction.map a.offsetOf)

/-- The encoded instructions, once control cannot leave the code at the end and all jumps have a
target. -/
def assembled (a : Assembler) : Except Error Bytes :=
  if a.reachable then .error (.typing a.routine .fallsOff)
  else match a.unbound? with
    | some label => .error (.typing a.routine (.unboundLabel label))
    | none => .ok (Code.encode a.resolved)

/-- The assembler with the given code, in which no offset is missing. -/
def completed (a : Assembler) (code : Buffer) (hfill : Fixup.Fillable code [])
    (hsize : code.size = Code.size a.newest) : Assembler :=
  { a with code, fixups := [], fillable := hfill, size_eq := hsize }

@[simp] theorem size_completed (a : Assembler) {code : Buffer} (hfill : Fixup.Fillable code [])
    (hsize : code.size = Code.size a.newest) : (a.completed code hfill hsize).size = a.size :=
  hsize.trans a.size_eq.symm

/-- Offsets can always be filled in. -/
theorem exists_patched (hdead : a.reachable = false) (hbound : a.unbound? = none) :
    ∃ code, a.patched = .ok code := by
  obtain ⟨code, hcode, -⟩ := Fixup.exists_patch a.offsetOf a.fillable.inside
  refine ⟨code, ?_⟩
  rw [patched, if_neg (by simp [hdead]), hbound, ← hcode]

/-- Code that cannot be finished fails for its labels, or because control can leave it. -/
theorem finish_eq_error (h : a.finish = .error e) : ∃ fault, e = .typing a.routine fault := by
  by_cases hreach : a.reachable = true
  · rw [finish, patched, if_pos hreach] at h
    cases h
    exact ⟨_, rfl⟩
  cases hbound : a.unbound? with
  | some label =>
    rw [finish, patched, if_neg hreach, hbound] at h
    cases h
    exact ⟨_, rfl⟩
  | none =>
    obtain ⟨code, hcode⟩ := exists_patched (by simpa using hreach) hbound
    rw [finish, hcode] at h
    cases h

/-- The completed assembler has the finished code. -/
theorem complete_eq_ok (h : a.complete = .ok done) :
    ∃ code hfill hsize, a.patched = .ok code ∧ done = a.completed code hfill hsize := by
  unfold complete at h
  split at h
  · next code hcode =>
    cases h
    exact ⟨code, _, _, hcode, rfl⟩
  · cases h

theorem finish_eq_map (a : Assembler) :
    a.finish = a.complete.map fun done => done.code.bytes := by
  unfold finish complete
  split
  · next code hcode => exact congrArg (Except.map Buffer.bytes) hcode
  · next e herror => exact congrArg (Except.map Buffer.bytes) herror

/-- Every label with a jump to it is bound. -/
theorem isSome_offset_of_unbound? (h : a.unbound? = none) {label : Nat} {l : LabelState}
    (hl : a.labels[label]? = some l) (href : l.referenced = true) : l.offset.isSome := by
  have hmem : l ∈ a.labels := Array.mem_of_getElem? hl
  simpa [href] using Array.findIdx?_eq_none_iff.mp h l hmem

/-- **Finished code is made of whole instructions**, whatever the labels are. -/
theorem finish_encodes (h : a.finish = .ok bytes) : ∃ written, bytes = Code.encode written := by
  rw [finish] at h
  cases hcode : a.patched with
  | ok code =>
    rw [hcode] at h
    cases h
    exact (a.fillable.patched (patched_eq_ok hcode).2.2).encodes fun _ => 0
  | error e =>
    rw [hcode] at h
    cases h

theorem Coded.bytes_patched (h : a.Coded) {code : Buffer} (hcode : a.patched = .ok code) :
    code.bytes = Code.encode a.resolved :=
  (a.fillable.bytes_patched (patched_eq_ok hcode).2.2).trans (h _ a.admits_offsetOf)

/-- **Patched code is the encoding of the resolved instructions**, and code that is not finished
fails for its instructions and labels alone. -/
theorem Coded.finish_eq (h : a.Coded) : a.finish = a.assembled := by
  by_cases hreach : a.reachable = true
  · rw [finish, patched, assembled, if_pos hreach, if_pos hreach]
    rfl
  cases hbound : a.unbound? with
  | some label =>
    rw [finish, patched, assembled, if_neg hreach, if_neg hreach, hbound]
    rfl
  | none =>
    obtain ⟨code, hcode⟩ := exists_patched (by simpa using hreach) hbound
    rw [finish, hcode, assembled, if_neg hreach, hbound]
    exact congrArg Except.ok (h.bytes_patched hcode)

/-- **Completed code stays so**: the labels of all jumps are bound, so that no other offsets are
left. -/
theorem Coded.complete (h : a.Coded) (hdone : a.complete = .ok done)
    (htargets : ∀ i ∈ a.newest, ∀ label, i.target? = some label →
      ∃ l, a.labels[label]? = some l ∧ l.referenced = true) : done.Coded := by
  obtain ⟨code, hfill, hsize, hcode, rfl⟩ := complete_eq_ok hdone
  have hbound := (patched_eq_ok hcode).2.1
  -- labels that are bound later are no targets of this code
  intro target htarget
  show code.bytes = Code.encode (a.instructions.map (Instruction.map target))
  rw [h.bytes_patched hcode]
  refine congrArg Code.encode (List.map_congr_left fun i hi => ?_)
  refine Instruction.map_congr fun label hlabel => ?_
  obtain ⟨l, hl, href⟩ := htargets i (mem_instructions.mp hi) label hlabel
  obtain ⟨o, ho⟩ := Option.isSome_iff_exists.mp (isSome_offset_of_unbound? hbound hl href)
  have hoffset : a.offset? label = some o := by rw [offset?, hl, Option.bind_some, ho]
  exact (a.admits_offsetOf label o hoffset).trans (htarget label o hoffset).symm

end Assembler

namespace Emit

variable {s t : Assembly} {bytes : Bytes}

theorem ends_finish {post : Bytes → Assembly → Prop} {fail : Error → Assembly → Prop}
    (hfail : ∀ e, fail e s)
    (h : ∀ done, s.assembler.complete = .ok done →
      post done.code.bytes { s with assembler := done }) :
    Ends Emit.finish s post fail := by
  unfold Ends Emit.finish
  cases hdone : s.assembler.complete with
  | ok done => exact h done hdone
  | error e => exact hfail e

/-- Finishing code leaves the completed code behind. -/
theorem finish_eq_ok (h : Emit.finish s = .ok bytes t) :
    s.assembler.finish = .ok bytes ∧ ∃ code hfill hsize, code.bytes = bytes ∧
      t = { s with assembler := s.assembler.completed code hfill hsize } := by
  have hends : Ends Emit.finish s (fun bytes t => s.assembler.finish = .ok bytes ∧
      ∃ code hfill hsize, code.bytes = bytes ∧
        t = { s with assembler := s.assembler.completed code hfill hsize })
      (fun _ _ => True) := by
    refine ends_finish (fun _ => trivial) fun done hdone => ⟨?_, ?_⟩
    · rw [Assembler.finish_eq_map, hdone]
      rfl
    · obtain ⟨code, hfill, hsize, -, rfl⟩ := Assembler.complete_eq_ok hdone
      exact ⟨code, hfill, hsize, rfl, rfl⟩
  exact hends.ok h

end Emit

end Bytecode
