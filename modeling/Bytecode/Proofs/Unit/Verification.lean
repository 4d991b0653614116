import Mathlib
import Bytecode.Proofs.Image.RoundTrip
import Bytecode.Proofs.Unit.Construction

/-!
# Sound units are accepted

The verifier accepts what a sound unit contains, and reads it back, unless a text in its constants
is too long for the length that is written.

## Main results

* `UnitBuilder.Sound.check_image`: the contents of a sound unit pass the checks of the verifier
* `UnitBuilder.Sound.decode_image_iff`: which sound units are read back
* `UnitBuilder.Sound.verify_image_iff`: which sound units are accepted
-/

namespace Bytecode

namespace UnitBuilder

/-- The contents of a sound unit are accepted, finished or not. -/
theorem Sound.check_image {u : UnitBuilder} (h : u.Sound) : u.image.check = .ok () := by
  refine Image.check_eq_ok u.fields.nodup_toList h.nodup fun record hrecord => ?_
  obtain ⟨id, -, r, hsound, hr⟩ := h.finished record hrecord
  have hsize : u.image.symbols.length = u.symbols.size := u.symbols.length_entries
  rw [hsize]
  exact hsound.verify hr

/-- The contents of a sound unit are read back exactly when the texts in its constants fit. -/
theorem Sound.decode_image_iff {u : UnitBuilder} (h : u.Sound) {bytes : Bytes}
    (hbytes : u.image.encode = .ok bytes) :
    Image.decode bytes = .ok u.image ↔ ∀ c ∈ u.pool.entries, c.TextsFit := by
  refine Image.decode_encode_iff hbytes rfl h.fields fun record hrecord => ?_
  obtain ⟨id, -, r, -, hr⟩ := h.finished record hrecord
  obtain ⟨code, -, hlength, -, rfl⟩ := Routine.record_eq_ok hr
  exact hlength.trans_lt (by decide)

/-- The encoded contents of a sound unit are accepted exactly when they are read back. -/
theorem Sound.verify_image_iff {u : UnitBuilder} (h : u.Sound) {bytes : Bytes}
    (hbytes : u.image.encode = .ok bytes) :
    Image.verify bytes = .ok u.image ↔ ∀ c ∈ u.pool.entries, c.TextsFit := by
  rw [← h.decode_image_iff hbytes]
  constructor
  · intro hverify
    obtain ⟨image, hdecode, hcheck⟩ := exists_of_except_bind hverify
    obtain ⟨_, -, himage⟩ := exists_of_except_bind hcheck
    cases himage
    exact hdecode
  · intro hdecode
    -- what the verifier decodes is the contents, and these pass its checks
    calc Image.verify bytes
        = (do u.image.check; return u.image) := by rw [Image.verify, hdecode]; rfl
      _ = .ok u.image := by rw [h.check_image]; rfl

end UnitBuilder

theorem Build.toBytes_of_ended {u : UnitBuilder} (h : u.phase = .ended) :
    Build.toBytes u = .ok u.bytes u := by
  obtain ⟨context, name, source, strict, phase⟩ := u
  subst h
  rfl

/-- Two routines under construction at once, and requests that fail: a field that is there already,
a return without a value, and an early end. -/
def interleavedUnit : List UnitRequest :=
  [.begin, .field { flags := Flags.ofList [], name := "count", type := .int },
    .field { flags := Flags.ofList [], name := "count", type := .long },
    .routine (Flags.ofList [.isStatic]) "first" { result := .int },
    .routine (Flags.ofList [.isStatic]) "second" { result := .string },
    .beginRoutine 0, .beginRoutine 1, .onRoutine 0 (.emission .returnValue),
    .loadConstant 1 (.string "text"), .onRoutine 0 (.emission (.pushInt 7)), .finish,
    .onRoutine 1 (.emission .returnValue), .onRoutine 0 (.emission .returnValue),
    .endRoutine 1, .endRoutine 0]

end Bytecode
