import Mathlib
import Bytecode.Proofs.Constant.Limits
import Bytecode.Proofs.Image.Spelling

/-!
# Reading units back

An image that could be encoded is read back from its bytes, because its encoding is one of its
spellings. Names and counts that do not fit were refused when the image was encoded; what is left to
ask for is that lengths in four bytes fit, that no field is void, and that the version is the one
there is.

## Main results

* `Image.spelledPart_of_encodePart`: the encoding of a part is a spelling of it
* `Image.spelledBy_of_encode`: the encoding of an image is a spelling of it
* `Image.decode_encode`: decoding undoes encoding
* `Image.decode_encode_iff`: which images are read back
-/

namespace Bytecode

namespace Image

variable {u : Image} {bytes : Bytes}

/-- The encoding of a part is a spelling of it, if the encodings of its items are. -/
theorem spelledPart_of_encodePart {α : Type} {part : Section} {encode : α → Except Error Bytes}
    {items : List α} {Spells : α → Bytes → Prop} (h : encodePart part encode items = .ok bytes)
    (hitem : ∀ x ∈ items, ∀ one, encode x = .ok one → Spells x one) :
    SpelledPart Spells items bytes := by
  unfold encodePart at h
  split at h
  · cases h
  · next hcount =>
    obtain ⟨parts, hparts, h⟩ := exists_of_except_bind h
    cases h
    refine .intro (Nat.le_of_not_lt hcount) ?_
    refine List.Forall₂.imp ?_ ((List.forall₂_and_left _ _).mpr ⟨hitem, forall₂_of_mapM hparts⟩)
    intro x one hx
    exact hx.1 one hx.2

/-- A truth value is encoded as a mark for it. -/
theorem exists_mark (b : Bool) : ∃ mark, (mark != 0) = b ∧ Wire.flag b = [mark] := by
  cases b with
  | true => exact ⟨1, rfl, Wire.u8_eq 1⟩
  | false => exact ⟨0, rfl, Wire.u8_eq 0⟩

theorem spelledBy_of_encodeField {f : Field} (h : encodeField f = .ok bytes)
    (htype : f.type ≠ .void) : f.SpelledBy bytes := by
  obtain ⟨name, hname, h⟩ := exists_of_except_bind h
  cases h
  obtain ⟨mark, hmark, hflag⟩ := exists_mark f.initial.isSome
  have hinitial : encodeInitial f.initial = mark :: f.initialBytes := by
    unfold encodeInitial Field.initialBytes
    cases hf : f.initial with
    | none => rwa [hf] at hflag
    | some value =>
      rw [hf] at hflag
      exact congrArg (· ++ Wire.i64 value) hflag
  rw [hinitial]
  exact .intro htype hname hmark

theorem spelledBy_of_encoded {c : Constant} (h : c.encoded = .ok bytes) (hfits : c.Fits) :
    c.SpelledBy bytes :=
  ⟨hfits, (Constant.encoded_eq_ok h).2.symm⟩

/-- The encoding of an image is a spelling of it. -/
theorem spelledBy_of_encode (h : u.encode = .ok bytes) (hversion : u.version = currentVersion)
    (hfields : ∀ f ∈ u.fields, f.type ≠ .void) (hconstants : ∀ c ∈ u.constants, c.Fits)
    (hcode : ∀ r ∈ u.routines, r.code.length < 4294967296) : u.SpelledBy bytes := by
  obtain ⟨name, hname, h⟩ := exists_of_except_bind h
  obtain ⟨source, hsource, h⟩ := exists_of_except_bind h
  obtain ⟨symbols, hsymbols, h⟩ := exists_of_except_bind h
  obtain ⟨fields, hencoded, h⟩ := exists_of_except_bind h
  obtain ⟨constants, hpooled, h⟩ := exists_of_except_bind h
  obtain ⟨routines, hroutines, h⟩ := exists_of_except_bind h
  cases h
  obtain ⟨mark, hmark, hflag⟩ := exists_mark u.strict
  have hspelled := Image.SpelledBy.intro hversion hname hsource hmark
    (spelledPart_of_encodePart hsymbols fun _ _ _ hone => hone)
    (spelledPart_of_encodePart hencoded fun f hf _ hone =>
      spelledBy_of_encodeField hone (hfields f hf))
    (spelledPart_of_encodePart hpooled fun c hc _ hone =>
      spelledBy_of_encoded hone (hconstants c hc))
    (spelledPart_of_encodePart hroutines fun r hr _ hone => ⟨hcode r hr, hone⟩)
  rw [hflag]
  simpa only [List.append_assoc, List.cons_append, List.nil_append] using hspelled

/-- **Decoding undoes encoding** for an image that could be encoded. -/
theorem decode_encode (h : u.encode = .ok bytes) (hversion : u.version = currentVersion)
    (hfields : ∀ f ∈ u.fields, f.type ≠ .void) (hconstants : ∀ c ∈ u.constants, c.Fits)
    (hcode : ∀ r ∈ u.routines, r.code.length < 4294967296) : decode bytes = .ok u :=
  decode_eq_ok_iff.mpr (spelledBy_of_encode h hversion hfields hconstants hcode)

/-- The counts of constants were checked when they were encoded. -/
theorem countable_of_encode (h : u.encode = .ok bytes) : ∀ c ∈ u.constants, c.Countable := by
  obtain ⟨name, -, h⟩ := exists_of_except_bind h
  obtain ⟨source, -, h⟩ := exists_of_except_bind h
  obtain ⟨symbols, -, h⟩ := exists_of_except_bind h
  obtain ⟨fields, -, h⟩ := exists_of_except_bind h
  obtain ⟨constants, hpooled, -⟩ := exists_of_except_bind h
  have hparts : SpelledPart (fun c _ => c.Countable) u.constants constants :=
    spelledPart_of_encodePart hpooled fun _ _ _ hone => (Constant.encoded_eq_ok hone).1
  exact hparts.forall_mem fun _ _ hc => hc

theorem fits_of_decode (h : decode bytes = .ok u) : ∀ c ∈ u.constants, c.Fits := by
  obtain ⟨-, -, -, -, -, -, hconstants, -⟩ := decode_eq_ok_iff.mp h
  exact hconstants.forall_mem fun _ _ hone => hone.1

/-- There are four bytes for the length of the code of a routine. -/
theorem length_code_of_decode (h : decode bytes = .ok u) :
    ∀ r ∈ u.routines, r.code.length < 4294967296 := by
  obtain ⟨-, -, -, -, -, -, -, hroutines⟩ := decode_eq_ok_iff.mp h
  exact hroutines.forall_mem fun _ _ hone => hone.1

/-- **An image is read back exactly when the texts in its constants fit.** Their lengths are the one
thing that encoding does not check. -/
theorem decode_encode_iff (h : u.encode = .ok bytes) (hversion : u.version = currentVersion)
    (hfields : ∀ f ∈ u.fields, f.type ≠ .void)
    (hcode : ∀ r ∈ u.routines, r.code.length < 4294967296) :
    decode bytes = .ok u ↔ ∀ c ∈ u.constants, c.TextsFit := by
  constructor
  · intro hdecode c hc
    exact (fits_of_decode hdecode c hc).textsFit
  · intro htexts
    refine decode_encode h hversion hfields (fun c hc => ?_) hcode
    exact Constant.fits_iff.mpr ⟨countable_of_encode h c hc, htexts c hc⟩

end Image

end Bytecode
