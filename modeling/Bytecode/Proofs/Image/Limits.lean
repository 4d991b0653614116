import Mathlib
import Bytecode.Proofs.Image.RoundTrip

/-!
# The limits of the unit format

Names and counts take two bytes, and encoding refuses what does not fit there. Nothing else is
refused: an image can be encoded exactly when it is not oversized, and it is then read back whole.
What makes encoding fail is said without the encoder, one way for each name and each count.

## Main definitions

* `Image.Oversized`: a name or a count of an image does not fit in two bytes

## Main results

* `Image.succeeds_encodePart`: a part is encoded exactly when it is short and its items are encoded
* `Image.succeeds_encode`: an image is encoded exactly when it is not oversized
* `Image.encode_eq_error`: the reasons for which encoding fails
* `Image.encode_reversible`: encoding fails on oversized images only, and decoding undoes it
-/

namespace Bytecode

/-- A name is encoded exactly when its length fits in two bytes. -/
theorem Wire.succeeds_name (t : Text) : Succeeds (Wire.name t) ↔ t.length ≤ 65535 := by
  unfold Wire.name
  rw [succeeds_bind_pure, Wire.requireName]
  split
  · next hlong =>
    have hnot : ¬ t.length ≤ 65535 := Nat.not_le.mpr hlong
    simp [Succeeds, hnot]
  · next hshort => exact iff_of_true ⟨(), rfl⟩ (Nat.not_lt.mp hshort)

namespace Image

/-- A part of a unit is encoded exactly when it is short enough and each of its items is encoded. -/
theorem succeeds_encodePart {α : Type} {part : Section} {item : α → Except Error Bytes}
    {items : List α} : Succeeds (encodePart part item items) ↔
      items.length ≤ 65535 ∧ ∀ x ∈ items, Succeeds (item x) := by
  unfold encodePart
  split
  · next hlong =>
    -- too many items are refused before any of them is looked at
    refine iff_of_false ?_ fun h => Nat.not_le.mpr hlong h.1
    rintro ⟨bytes, ⟨⟩⟩
  · next hshort =>
    have hlength : items.length ≤ 65535 := Nat.not_lt.mp hshort
    change Succeeds (items.mapM item >>= _) ↔ _
    rw [succeeds_bind_pure, succeeds_mapM]
    exact (and_iff_right hlength).symm

theorem succeeds_encodeField (f : Field) : Succeeds (encodeField f) ↔ f.name.length ≤ 65535 := by
  unfold encodeField
  rw [succeeds_bind_pure, Wire.succeeds_name]

theorem succeeds_encodeRoutine (r : RoutineRecord) :
    Succeeds (encodeRoutine r) ↔ r.name.length ≤ 65535 ∧ r.descriptor.length ≤ 65535 := by
  unfold encodeRoutine
  rw [succeeds_bind fun _ => succeeds_bind_pure, Wire.succeeds_name, Wire.succeeds_name]

/-- **A name or a count does not fit in two bytes.** -/
inductive Oversized (u : Image) : Prop
  | name (h : 65535 < u.name.length)
  | source (h : 65535 < u.source.length)
  | symbol {s : Text} (hs : s ∈ u.symbols) (h : 65535 < s.length)
  | field {f : Field} (hf : f ∈ u.fields) (h : 65535 < f.name.length)
  | routine {r : RoutineRecord} (hr : r ∈ u.routines) (h : 65535 < r.name.length)
  | descriptor {r : RoutineRecord} (hr : r ∈ u.routines) (h : 65535 < r.descriptor.length)
  | symbolCount (h : 65535 < u.symbols.length)
  | fieldCount (h : 65535 < u.fields.length)
  | constantCount (h : 65535 < u.constants.length)
  | routineCount (h : 65535 < u.routines.length)

/-- Encoding goes through the parts in order, and each of them has its own limits. -/
theorem succeeds_encode_iff (u : Image) :
    Succeeds u.encode ↔
      u.name.length ≤ 65535 ∧ u.source.length ≤ 65535 ∧
      (u.symbols.length ≤ 65535 ∧ ∀ s ∈ u.symbols, s.length ≤ 65535) ∧
      (u.fields.length ≤ 65535 ∧ ∀ f ∈ u.fields, f.name.length ≤ 65535) ∧
      (u.constants.length ≤ 65535 ∧ ∀ c ∈ u.constants, c.Countable) ∧
      u.routines.length ≤ 65535 ∧
        ∀ r ∈ u.routines, r.name.length ≤ 65535 ∧ r.descriptor.length ≤ 65535 := by
  have hsymbols : Succeeds (encodePart .symbols Wire.name u.symbols) ↔ _ := succeeds_encodePart
  have hfields : Succeeds (encodePart .fields encodeField u.fields) ↔ _ := succeeds_encodePart
  have hconstants : Succeeds (encodePart .constants Constant.encoded u.constants) ↔ _ :=
    succeeds_encodePart
  have hroutines : Succeeds (encodePart .routines encodeRoutine u.routines) ↔ _ :=
    succeeds_encodePart
  unfold encode
  rw [succeeds_bind fun _ => succeeds_bind fun _ => succeeds_bind fun _ => succeeds_bind fun _ =>
    succeeds_bind fun _ => succeeds_bind_pure]
  simp only [Wire.succeeds_name, hsymbols, hfields, hconstants, hroutines, succeeds_encodeField,
    succeeds_encodeRoutine, Constant.succeeds_encoded]

/-- **An image is encoded exactly when it is not oversized**, if its constants are encoded. -/
theorem succeeds_encode {u : Image} (hcountable : ∀ c ∈ u.constants, c.Countable) :
    Succeeds u.encode ↔ ¬ u.Oversized := by
  rw [succeeds_encode_iff, and_iff_left hcountable]
  constructor
  · rintro ⟨hname, hsource, ⟨hsymbols, hsymbol⟩, ⟨hfields, hfield⟩, hconstants, hroutines, hroutine⟩
      hover
    cases hover with
    | name h => omega
    | source h => omega
    | symbol hs h => exact Nat.not_lt.mpr (hsymbol _ hs) h
    | field hf h => exact Nat.not_lt.mpr (hfield _ hf) h
    | routine hr h => exact Nat.not_lt.mpr (hroutine _ hr).1 h
    | descriptor hr h => exact Nat.not_lt.mpr (hroutine _ hr).2 h
    | symbolCount h => omega
    | fieldCount h => omega
    | constantCount h => omega
    | routineCount h => omega
  · intro hover
    refine ⟨?_, ?_, ⟨?_, fun s hs => ?_⟩, ⟨?_, fun f hf => ?_⟩, ?_, ?_, fun r hr => ⟨?_, ?_⟩⟩
    · exact Nat.not_lt.mp fun h => hover (.name h)
    · exact Nat.not_lt.mp fun h => hover (.source h)
    · exact Nat.not_lt.mp fun h => hover (.symbolCount h)
    · exact Nat.not_lt.mp fun h => hover (.symbol hs h)
    · exact Nat.not_lt.mp fun h => hover (.fieldCount h)
    · exact Nat.not_lt.mp fun h => hover (.field hf h)
    · exact Nat.not_lt.mp fun h => hover (.constantCount h)
    · exact Nat.not_lt.mp fun h => hover (.routineCount h)
    · exact Nat.not_lt.mp fun h => hover (.routine hr h)
    · exact Nat.not_lt.mp fun h => hover (.descriptor hr h)

/-- The number of items in a part of a unit. -/
def count (u : Image) : Section → Nat
  | .symbols => u.symbols.length
  | .fields => u.fields.length
  | .constants => u.constants.length
  | .routines => u.routines.length

theorem encodePart_eq_error {α : Type} {part : Section} {item : α → Except Error Bytes}
    {items : List α} {e : Error} (h : encodePart part item items = .error e) :
    (∃ x ∈ items, item x = .error e) ∨
      65535 < items.length ∧ e = .inconsistent (.tooMany part) := by
  unfold encodePart at h
  split at h
  · next hlong =>
    cases h
    exact .inr ⟨hlong, rfl⟩
  · rcases error_of_except_bind (x := items.mapM item) h with h | ⟨_, -, h⟩
    · exact .inl (exists_error_of_mapM h)
    · cases h

theorem kind_of_name {t : Text} {e : Error} (h : Wire.name t = .error e) :
    e.kind = .unsupportedInput := by
  rcases error_of_except_bind h with h | ⟨_, -, h⟩
  · unfold Wire.requireName at h
    split at h
    · cases h
      rfl
    · cases h
  · cases h

/-- **Encoding refuses a name because of a limit, and too many items as an inconsistency.** -/
theorem encode_eq_error {u : Image} {e : Error} (hcountable : ∀ c ∈ u.constants, c.Countable)
    (h : u.encode = .error e) :
    e.kind = .unsupportedInput ∨
      ∃ part, 65535 < u.count part ∧ e = .inconsistent (.tooMany part) := by
  have hpart : ∀ {α : Type} (part : Section) {item : α → Except Error Bytes} {items : List α},
      (∀ x ∈ items, ∀ e, item x = .error e → e.kind = .unsupportedInput) →
      items.length = u.count part →
      encodePart part item items = .error e → e.kind = .unsupportedInput ∨
        ∃ part, 65535 < u.count part ∧ e = .inconsistent (.tooMany part) := by
    intro α part item items hitem hcount h
    rcases encodePart_eq_error h with ⟨x, hmem, hx⟩ | ⟨hlong, he⟩
    · exact .inl (hitem x hmem e hx)
    · exact .inr ⟨part, hcount ▸ hlong, he⟩
  have hfield : ∀ f e, encodeField f = .error e → e.kind = .unsupportedInput := by
    intro f e h
    rcases error_of_except_bind h with h | ⟨_, -, h⟩
    · exact kind_of_name h
    · cases h
  have hroutine : ∀ r e, encodeRoutine r = .error e → e.kind = .unsupportedInput := by
    intro r e h
    rcases error_of_except_bind h with h | ⟨_, -, h⟩
    · exact kind_of_name h
    · rcases error_of_except_bind h with h | ⟨_, -, h⟩
      · exact kind_of_name h
      · cases h
  -- the parts are encoded in order, and the first one that fails decides
  rcases error_of_except_bind h with h | ⟨_, -, h⟩
  · exact .inl (kind_of_name h)
  rcases error_of_except_bind h with h | ⟨_, -, h⟩
  · exact .inl (kind_of_name h)
  rcases error_of_except_bind h with h | ⟨_, -, h⟩
  · exact hpart .symbols (fun _ _ _ => kind_of_name) rfl h
  rcases error_of_except_bind h with h | ⟨_, -, h⟩
  · exact hpart .fields (fun f _ => hfield f) rfl h
  rcases error_of_except_bind h with h | ⟨_, -, h⟩
  · refine hpart .constants (fun c hc e hfails => ?_) rfl h
    rw [Constant.encoded_of_countable (hcountable c hc)] at hfails
    cases hfails
  rcases error_of_except_bind h with h | ⟨_, -, h⟩
  · exact hpart .routines (fun r _ => hroutine r) rfl h
  · cases h

/-- **Encoding is reversible within the limits of the format.** It fails exactly on oversized
images, and decoding gives back every other image, field by field. The version is the one that there
is, no field is void, and lengths in four bytes fit there. -/
theorem encode_reversible {u : Image} (hversion : u.version = 1)
    (hfields : ∀ f ∈ u.fields, f.type ≠ .void) (hconstants : ∀ c ∈ u.constants, c.Fits)
    (hcode : ∀ r ∈ u.routines, r.code.length < 4294967296) :
    ((∃ e, u.encode = .error e) ↔ u.Oversized) ∧
      (¬ u.Oversized → ∃ bytes, u.encode = .ok bytes ∧ decode bytes = .ok u) := by
  have hcountable : ∀ c ∈ u.constants, c.Countable := fun c hc =>
    (hconstants c hc).countable
  constructor
  · rw [exists_error_iff, succeeds_encode hcountable, not_not]
  · intro hover
    obtain ⟨bytes, hbytes⟩ := (succeeds_encode hcountable).mpr hover
    exact ⟨bytes, hbytes, decode_encode hbytes hversion hfields hconstants hcode⟩

/-- An image with something in every part: a field with an initial value and one without, all
flags, objects nested in objects, and a number that is not a number. -/
def nestedImage : Image where
  name := "unit"
  source := "source"
  strict := true
  symbols := ["unit.constants:[O", ""]
  fields := [{ flags := ⟨0xFFFF⟩, name := "count", type := .long, initial := some (-1) },
    { flags := ⟨0⟩, name := "", type := .objectArray }]
  constants := [.objects [.objects [], .numbers [⟨0x7FF8000000000001⟩], .map ["key", ""]],
    .string "text", .ints [-1], .longs []]
  routines :=
    [{ flags := ⟨9⟩, name := "main", descriptor := "()V", maxStack := 1, maxLocals := 0,
       code := [0x61] }]

theorem fits_of_mem_nestedImage {c : Constant} (hc : c ∈ nestedImage.constants) : c.Fits := by
  have hobjects : (Constant.objects []).Fits := .objects (by decide) fun _ h => absurd h (by simp)
  have hnumbers : (Constant.numbers [⟨0x7FF8000000000001⟩]).Fits := .numbers (by decide)
  have hmap : (Constant.map ["key", ""]).Fits := .map (by decide) (by decide)
  simp only [nestedImage, List.mem_cons, List.not_mem_nil, or_false] at hc
  rcases hc with rfl | rfl | rfl | rfl
  · refine .objects (by decide) fun d hd => ?_
    simp only [List.mem_cons, List.not_mem_nil, or_false] at hd
    rcases hd with rfl | rfl | rfl
    · exact hobjects
    · exact hnumbers
    · exact hmap
  · exact .string (by decide)
  · exact .ints (by decide)
  · exact .longs (by decide)

theorem nestedImage_reversible :
    (∃ bytes, nestedImage.encode = .ok bytes ∧ decode bytes = .ok nestedImage) ∧
      ∃ e, encode { nestedImage with name := List.replicate 65536 97 } = .error e := by
  have hfields : ∀ f ∈ nestedImage.fields, f.type ≠ .void := by decide
  have hcode : ∀ r ∈ nestedImage.routines, r.code.length < 4294967296 := by decide
  -- a longer name changes none of the conditions
  have hnamed : ∀ name : Text, 65535 < name.length →
      ∃ e, encode { nestedImage with name } = .error e := by
    intro name hname
    have hlimits := encode_reversible (u := { nestedImage with name }) rfl hfields
      (fun _ => fits_of_mem_nestedImage) hcode
    exact hlimits.1.mpr (.name hname)
  constructor
  · refine (encode_reversible rfl hfields (fun _ => fits_of_mem_nestedImage) hcode).2 ?_
    have hcountable : ∀ c ∈ nestedImage.constants, c.Countable := fun _ hc =>
      (fits_of_mem_nestedImage hc).countable
    rw [← succeeds_encode hcountable, succeeds_encode_iff]
    decide
  · refine hnamed _ ?_
    rw [List.length_replicate]
    decide

end Image

end Bytecode
