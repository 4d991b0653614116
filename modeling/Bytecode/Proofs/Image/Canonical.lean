import Mathlib
import Bytecode.Proofs.Image.Resilience

/-!
# Units in their canonical form

A unit that was decoded can be encoded again, and the result is the input with its truth values
normalised: a byte that stands for true becomes one. Nothing else changes, so nothing in the input
was passed over. The result is a unit like any other; it is decoded and verified as the input is.

No spelling of a unit begins another one, even of a different unit: the decoder knows where a unit
ends without looking at what follows, so a unit that is cut short or goes on is refused.

## Main definitions

* `Normalises marks bytes bytes'`: the bytes at the offsets `marks` are normalised, the others kept
* `Image.strictOffset`, `Field.markOffsets`: where the truth values of a unit stand
* `Image.truthOffsets`: all of them

## Main results

* `Image.exists_encode_of_spelledBy`: a spelling is encoded as its canonical form
* `Image.encode_decode`: encoding after decoding normalises the truth values and nothing else
* `Image.decode_prefixFree`: a unit that is cut short or goes on is refused
-/

namespace Bytecode

/-! ## Normalised bytes -/

/-- The canonical form of a truth value. -/
def normalMark (b : UInt8) : UInt8 := if b = 0 then 0 else 1

/-- `bytes'` are `bytes` with the truth values at the offsets `marks` in canonical form. -/
structure Normalises (marks : List Nat) (bytes bytes' : Bytes) : Prop where
  lt_length : ∀ i ∈ marks, i < bytes.length
  getElem?_eq : ∀ i, bytes'[i]? = if i ∈ marks then bytes[i]?.map normalMark else bytes[i]?

namespace Normalises

variable {marks marks' : List Nat} {bytes bytes' more more' : Bytes}

theorem refl (bytes : Bytes) : Normalises [] bytes bytes where
  lt_length := by simp
  getElem?_eq := by simp

theorem mark (b : UInt8) : Normalises [0] [b] [normalMark b] where
  lt_length := by simp
  getElem?_eq i := by
    cases i with
    | zero => simp
    | succ i => simp

theorem length_eq (h : Normalises marks bytes bytes') : bytes'.length = bytes.length := by
  refine eq_of_forall_ge_iff fun i => ?_
  rw [← List.getElem?_eq_none_iff, ← List.getElem?_eq_none_iff, h.getElem?_eq]
  split_ifs
  · exact Option.map_eq_none_iff
  · rfl

/-- What is normalised in two parts is normalised as a whole; the offsets in the second part are
counted from the start of the first one. -/
theorem append (h : Normalises marks bytes bytes') (h' : Normalises marks' more more') :
    Normalises (marks ++ marks'.map (bytes.length + ·)) (bytes ++ more) (bytes' ++ more') where
  lt_length i hi := by
    rw [List.length_append]
    rcases List.mem_append.mp hi with hi | hi
    · have := h.lt_length i hi
      omega
    · obtain ⟨j, hj, rfl⟩ := List.mem_map.mp hi
      have := h'.lt_length j hj
      omega
  getElem?_eq i := by
    by_cases hi : i < bytes.length
    · -- in the first part only its own offsets count
      have hmem : i ∈ marks ++ marks'.map (bytes.length + ·) ↔ i ∈ marks := by
        rw [List.mem_append, List.mem_map]
        refine or_iff_left ?_
        rintro ⟨j, -, rfl⟩
        omega
      rw [List.getElem?_append_left hi, List.getElem?_append_left (h.length_eq ▸ hi), h.getElem?_eq]
      simp only [hmem]
    · -- and after it only those of the second part
      have hmem : i ∈ marks ++ marks'.map (bytes.length + ·) ↔ i - bytes.length ∈ marks' := by
        rw [List.mem_append, List.mem_map]
        constructor
        · rintro (hmark | ⟨j, hj, rfl⟩)
          · exact absurd (h.lt_length i hmark) hi
          · rwa [Nat.add_sub_cancel_left]
        · intro hmark
          exact .inr ⟨i - bytes.length, hmark, by omega⟩
      have hi' : bytes'.length ≤ i := by
        rw [h.length_eq]
        omega
      rw [List.getElem?_append_right (Nat.not_lt.mp hi), List.getElem?_append_right hi',
        h.length_eq, h'.getElem?_eq]
      simp only [hmem]

theorem after (front : Bytes) (h : Normalises marks bytes bytes') :
    Normalises (marks.map (front.length + ·)) (front ++ bytes) (front ++ bytes') :=
  (refl front).append h

theorem before (h : Normalises marks bytes bytes') (rest : Bytes) :
    Normalises marks (bytes ++ rest) (bytes' ++ rest) := by
  simpa using h.append (refl rest)

end Normalises

/-! ## Where the truth values stand -/

/-- Where a field tells whether an initial value follows: after its flags, its name and its type. -/
def Field.markOffset (f : Field) : Nat := 2 + (2 + f.name.length) + 1

/-- The number of bytes that a field takes. -/
def Field.size (f : Field) : Nat := f.markOffset + 1 + if f.initial.isSome then 8 else 0

/-- Where each of some fields tells whether an initial value follows, from the start of the first
one. -/
def Field.markOffsets : List Field → List Nat
  | [] => []
  | f :: rest => f.markOffset :: (markOffsets rest).map (f.size + ·)

namespace Image

/-- Where a unit tells whether it is strict: after the magic word, the version and two names. -/
def strictOffset (u : Image) : Nat := 4 + 2 + (2 + u.name.length) + (2 + u.source.length)

/-- Where the first field of a unit stands: after its symbols and the count of its fields. -/
def fieldsOffset (u : Image) : Nat :=
  u.strictOffset + 1 + (2 + (u.symbols.map fun s => 2 + s.length).sum) + 2

/-- Where the truth values of a unit stand: whether it is strict, and for each of its fields whether
that has an initial value. -/
def truthOffsets (u : Image) : List Nat :=
  u.strictOffset :: (Field.markOffsets u.fields).map (u.fieldsOffset + ·)

end Image

/-! ## Canonical forms -/

theorem Wire.length_name {t : Text} {bytes : Bytes} (h : Wire.name t = .ok bytes) :
    bytes.length = 2 + t.length := by
  obtain ⟨⟨⟩, -, h⟩ := exists_of_except_bind h
  cases h
  simp [Wire.u16]

theorem Wire.length_names {names : List Text} {parts : List Bytes}
    (h : List.Forall₂ (fun t bytes => Wire.name t = .ok bytes) names parts) :
    parts.flatten.length = (names.map fun t => 2 + t.length).sum := by
  induction h with
  | nil => rfl
  | cons hname hrest ih =>
    rw [List.flatten_cons, List.length_append, ih, Wire.length_name hname, List.map_cons,
      List.sum_cons]

/-- A truth value is written in canonical form. -/
theorem Wire.flag_eq {mark : UInt8} {b : Bool} (h : (mark != 0) = b) :
    Wire.flag b = [normalMark mark] := by
  subst h
  by_cases hmark : mark = 0
  · simp [hmark, Wire.flag, Wire.u8_eq, normalMark]
  · simp [hmark, Wire.flag, Wire.u8_eq, normalMark]

theorem Image.encodeInitial_eq {f : Field} {mark : UInt8} (h : (mark != 0) = f.initial.isSome) :
    encodeInitial f.initial = normalMark mark :: f.initialBytes := by
  obtain ⟨flags, name, type, initial⟩ := f
  cases initial with
  | none => exact Wire.flag_eq h
  | some value => exact congrArg (· ++ Wire.i64 value) (Wire.flag_eq h)

namespace Field

variable {f : Field} {fields : List Field} {bytes : Bytes} {parts : List Bytes}

theorem length_front {name : Bytes} (hname : Wire.name f.name = .ok name) :
    (Wire.u16 f.flags.bits ++ name ++ Wire.type f.type).length = f.markOffset := by
  simp only [List.length_append, Wire.length_name hname, markOffset]
  simp [Wire.u16, Wire.type, Wire.u8]

theorem SpelledBy.length_eq (h : f.SpelledBy bytes) : bytes.length = f.size := by
  obtain ⟨-, hname, -⟩ := h
  have hinitial : f.initialBytes.length = if f.initial.isSome then 8 else 0 := by
    unfold initialBytes
    cases f.initial with
    | none => rfl
    | some value => simp [Wire.i64, Wire.u64]
  rw [List.length_append, length_front hname, List.length_cons, hinitial, size]
  omega

/-- A field is encoded as the canonical form of each of its spellings. -/
theorem SpelledBy.exists_encode (h : f.SpelledBy bytes) :
    ∃ bytes', Image.encodeField f = .ok bytes' ∧ Normalises [f.markOffset] bytes bytes' := by
  cases h with
  | @intro name mark htype hname hmark =>
    have hmarked := ((Normalises.mark mark).before f.initialBytes).after
      (Wire.u16 f.flags.bits ++ name ++ Wire.type f.type)
    rw [length_front hname] at hmarked
    refine ⟨_, ?_, hmarked⟩
    rw [Image.encodeField, hname, Image.encodeInitial_eq hmark]
    rfl

/-- Fields are encoded one by one, and what each of them becomes is found at its own offset. -/
theorem exists_mapM_encode (h : List.Forall₂ SpelledBy fields parts) :
    ∃ parts', fields.mapM Image.encodeField = .ok parts' ∧
      Normalises (markOffsets fields) parts.flatten parts'.flatten := by
  induction h with
  | nil => exact ⟨[], rfl, .refl []⟩
  | cons hone hrest ih =>
    obtain ⟨one', hencode, hmarked⟩ := hone.exists_encode
    obtain ⟨rest', hencodes, hmarks⟩ := ih
    refine ⟨one' :: rest', ?_, ?_⟩
    · rw [List.mapM_cons, hencode, hencodes]
      rfl
    · have hwhole := hmarked.append hmarks
      rwa [hone.length_eq] at hwhole

end Field

namespace SpelledPart

variable {α : Type} {Spells : α → Bytes → Prop} {items : List α} {bytes : Bytes}

/-- A part is encoded as its spelling when its items are. -/
theorem encodePart_eq {part : Section} {encode : α → Except Error Bytes}
    (h : SpelledPart Spells items bytes) (hitem : ∀ x one, Spells x one → encode x = .ok one) :
    Image.encodePart part encode items = .ok bytes := by
  obtain ⟨hcount, hparts⟩ := h
  rw [Image.encodePart, if_neg (Nat.not_lt.mpr hcount), mapM_eq_ok (hparts.imp hitem)]
  rfl

end SpelledPart

namespace Image

variable {u : Image} {bytes : Bytes}

theorem length_symbols {symbols : Bytes}
    (h : SpelledPart (fun s one => Wire.name s = .ok one) u.symbols symbols) :
    symbols.length = 2 + (u.symbols.map fun s => 2 + s.length).sum := by
  obtain ⟨-, hparts⟩ := h
  rw [List.length_append, Wire.length_names hparts]
  simp [Wire.u16]

/-- The fields of a unit are encoded as the canonical form of each of their spellings. -/
theorem exists_encode_fields {fields : Bytes} (h : SpelledPart Field.SpelledBy u.fields fields) :
    ∃ fields', encodePart .fields encodeField u.fields = .ok fields' ∧
      Normalises ((Field.markOffsets u.fields).map (2 + ·)) fields fields' := by
  obtain ⟨hcount, hparts⟩ := h
  obtain ⟨parts', hencode, hmarks⟩ := Field.exists_mapM_encode hparts
  refine ⟨_, ?_, hmarks.after (Wire.u16 u.fields.length.toUInt16)⟩
  rw [encodePart, if_neg (Nat.not_lt.mpr hcount), hencode]
  rfl

/-- The offsets of the truth values, counted from part to part of a unit. -/
theorem truthOffsets_eq {front symbols : Bytes} (hfront : front.length = u.strictOffset)
    (hsymbols : symbols.length = 2 + (u.symbols.map fun s => 2 + s.length).sum) :
    ([0] ++ (((Field.markOffsets u.fields).map (2 + ·)).map (symbols.length + ·)).map (1 + ·)).map
      (front.length + ·) = u.truthOffsets := by
  rw [hfront, hsymbols]
  simp only [truthOffsets, fieldsOffset, List.map_map, List.map_cons, List.singleton_append,
    Nat.add_zero]
  refine congrArg _ (List.map_congr_left fun i _ => ?_)
  simp only [Function.comp_apply]
  omega

/-- **A unit is encoded as the canonical form of each of its spellings.** -/
theorem exists_encode_of_spelledBy (h : u.SpelledBy bytes) :
    ∃ bytes', u.encode = .ok bytes' ∧ Normalises u.truthOffsets bytes bytes' := by
  cases h with
  | @intro name source symbols fields constants routines mark hversion hname hsource hmark hsymbols
      hfields hconstants hroutines =>
    obtain ⟨fields', hencode, hmarks⟩ := exists_encode_fields hfields
    have hfront : (magic ++ Wire.u16 u.version ++ name ++ source).length = u.strictOffset := by
      simp only [List.length_append, Wire.length_name hname, Wire.length_name hsource, strictOffset]
      simp [magic, Wire.u16]
    -- only the strict mark and the fields are not kept as they are
    have htail := ((hmarks.after symbols).before constants).before routines
    have hwhole := ((Normalises.mark mark).append htail).after
      (magic ++ Wire.u16 u.version ++ name ++ source)
    rw [List.length_singleton, truthOffsets_eq hfront (length_symbols hsymbols)] at hwhole
    refine ⟨_, ?_, hwhole⟩
    rw [encode, hname, hsource, hsymbols.encodePart_eq fun _ _ hone => hone, hencode,
      hconstants.encodePart_eq fun _ _ hone =>
        (Constant.encoded_of_countable hone.1.countable).trans (congrArg Except.ok hone.2),
      hroutines.encodePart_eq fun _ _ hone => hone.2, Wire.flag_eq hmark]
    -- the encoder groups the parts to the left, the spelling from the mark on to the right
    simp only [List.append_assoc]
    rfl

/-- A unit that has a spelling is decoded from its encoding. -/
theorem SpelledBy.decode_eq {canonical : Bytes} (h : u.SpelledBy bytes)
    (hencode : u.encode = .ok canonical) : decode canonical = .ok u := by
  obtain ⟨hversion, -, -, -, -, hfields, hconstants, hroutines⟩ := h
  refine decode_encode hencode hversion (hfields.forall_mem ?_)
    (hconstants.forall_mem fun c one hone => hone.1) (hroutines.forall_mem fun r one hone => hone.1)
  rintro f one ⟨htype, -, -⟩
  exact htype

/-- **Encoding after decoding normalises truth values and does nothing else.** A unit that was
decoded can be encoded. The result is as long as the input and has the same bytes, except that the
byte which tells whether the unit is strict, and in each field the byte which tells whether an
initial value follows, is one where it was not zero. It is decoded to the same unit, and
verification treats it as it treats the input. -/
theorem encode_decode (h : decode bytes = .ok u) :
    ∃ canonical, u.encode = .ok canonical ∧ canonical.length = bytes.length ∧
      (∀ i, i ∉ u.truthOffsets → canonical[i]? = bytes[i]?) ∧
      (∀ i ∈ u.truthOffsets, ∃ b, bytes[i]? = some b ∧
        canonical[i]? = some (if b = 0 then 0 else 1)) ∧
      decode canonical = .ok u ∧ verify canonical = verify bytes := by
  have hspelled := decode_eq_ok_iff.mp h
  obtain ⟨canonical, hencode, hnormal⟩ := exists_encode_of_spelledBy hspelled
  have hdecode := hspelled.decode_eq hencode
  refine ⟨canonical, hencode, hnormal.length_eq, ?_, ?_, hdecode, ?_⟩
  · intro i hi
    rw [hnormal.getElem?_eq, if_neg hi]
  · intro i hi
    have hlt := hnormal.lt_length i hi
    refine ⟨bytes[i], List.getElem?_eq_getElem hlt, ?_⟩
    rw [hnormal.getElem?_eq, if_pos hi, List.getElem?_eq_getElem hlt]
    rfl
  · -- verification sees nothing of the bytes but the unit in them
    rw [verify, verify, hdecode, h]

/-- A strict unit with two fields, the first of which has an initial value. Neither of the bytes
that say so is one. -/
def unevenBytes : Bytes :=
  magic ++ [1, 0, 1, 0, 85, 0, 0, 7, 0, 0, 2, 0] ++
    [8, 0, 1, 0, 120, 3, 255, 5, 0, 0, 0, 0, 0, 0, 0] ++ [8, 0, 1, 0, 121, 2, 0] ++ [0, 0, 0, 0]

/-- The unit in `unevenBytes`. -/
def unevenImage : Image where
  name := [85]
  source := []
  strict := true
  fields := [⟨⟨8⟩, [120], .long, some 5⟩, ⟨⟨8⟩, [121], .int, none⟩]

theorem decode_unevenBytes : decode unevenBytes = .ok unevenImage := rfl

theorem unevenBytes_normalised :
    ∃ canonical, unevenImage.encode = .ok canonical ∧ decode canonical = .ok unevenImage ∧
      unevenBytes[11]? = some 7 ∧ canonical[11]? = some 1 ∧
      unevenBytes[22]? = some 255 ∧ canonical[22]? = some 1 ∧ canonical[37]? = some 0 := by
  obtain ⟨canonical, hencode, -, -, hmarks, hdecode, -⟩ := encode_decode decode_unevenBytes
  have hoffsets : unevenImage.truthOffsets = [11, 22, 37] := rfl
  rw [hoffsets] at hmarks
  obtain ⟨strict, hstrict, hstrict'⟩ := hmarks 11 (by simp)
  obtain ⟨first, hfirst, hfirst'⟩ := hmarks 22 (by simp)
  obtain ⟨second, hsecond, hsecond'⟩ := hmarks 37 (by simp)
  cases hstrict
  cases hfirst
  cases hsecond
  exact ⟨canonical, hencode, hdecode, rfl, hstrict', rfl, hfirst', hsecond'⟩

/-! ## Where a unit ends -/

/-- What goes on after a unit is refused. -/
theorem decode_longer {whole : Bytes} (h : decode bytes = .ok u) (hwhole : bytes <+: whole)
    (hne : whole ≠ bytes) : decode whole = .error (.format .trailingBytes) := by
  obtain ⟨more, rfl⟩ := hwhole
  apply decode_append (decode_eq_ok_iff.mp h)
  rintro rfl
  exact hne (List.append_nil bytes)

/-- **No unit begins another one.** When bytes are decoded to a unit, everything shorter that they
begin with is refused, and so is everything longer that begins with them. -/
theorem decode_prefixFree (h : decode bytes = .ok u) :
    (∀ part, part <+: bytes → part ≠ bytes →
      ∃ e, decode part = .error e ∧ e.kind = .verification) ∧
    (∀ whole, bytes <+: whole → whole ≠ bytes →
      ∃ e, decode whole = .error e ∧ e.kind = .verification) := by
  constructor
  · intro part hpart hne
    cases hresult : decode part with
    | ok v =>
      -- were the part a unit, the whole would be one that goes on
      rw [decode_longer hresult hpart hne.symm] at h
      cases h
    | error e => exact ⟨e, rfl, kind_of_decode hresult⟩
  · intro whole hwhole hne
    exact ⟨_, decode_longer h hwhole hne, rfl⟩

theorem unevenBytes_prefixFree :
    (∃ e, decode (unevenBytes.take 40) = .error e ∧ e.kind = .verification) ∧
      ∃ e, decode (unevenBytes ++ unevenBytes) = .error e ∧ e.kind = .verification := by
  obtain ⟨hshorter, hlonger⟩ := decode_prefixFree decode_unevenBytes
  refine ⟨hshorter _ ⟨_, List.take_append_drop 40 unevenBytes⟩ ?_, hlonger _ ⟨unevenBytes, rfl⟩ ?_⟩
  · simp [unevenBytes, magic]
  · simp [unevenBytes, magic]

end Image

end Bytecode
