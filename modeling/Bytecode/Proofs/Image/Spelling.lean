import Mathlib
import Bytecode.Image
import Bytecode.Proofs.Constant.Taking
import Bytecode.Proofs.Instruction.Layout

/-!
# The grammar of units

Which bytes spell which unit, said without the decoder. All words, names, counts and constants have
one spelling each. A truth value has many: every byte but zero stands for true. There are two kinds
of them in a unit, the byte that tells whether it is strict and, in each field, the byte that tells
whether an initial value follows.

The decoder accepts exactly the bytes that spell a unit, and gives that unit. When more bytes
follow, it reads the same unit from the front of them and then refuses what is left.

## Main definitions

* `Field.SpelledBy`, `RoutineRecord.SpelledBy`: the spellings of the items of a unit
* `SpelledPart`: the spellings of a counted part
* `Image.SpelledBy`: the spellings of a unit

## Main results

* `Read.took_image`: what was read is a spelling of what was decoded
* `Read.image_eq`: a unit is read from its spelling, and nothing may follow it
* `Image.decode_eq_ok_iff`: bytes are decoded to a unit exactly when they spell it
-/

namespace Bytecode

theorem Wire.u8_eq (b : UInt8) : Wire.u8 b = [b] := by
  simp [Wire.u8, Wire.digits]

/-! ## Spellings -/

/-- The bytes of the initial value of a field, if it has one. -/
def Field.initialBytes (f : Field) : Bytes :=
  match f.initial with
  | none => []
  | some value => Wire.i64 value

/-- The spellings of a field; `mark` tells whether an initial value follows. -/
inductive Field.SpelledBy (f : Field) : Bytes → Prop
  | intro {name : Bytes} {mark : UInt8} (htype : f.type ≠ .void)
      (hname : Wire.name f.name = .ok name) (hmark : (mark != 0) = f.initial.isSome) :
      SpelledBy f (Wire.u16 f.flags.bits ++ name ++ Wire.type f.type ++ mark :: f.initialBytes)

/-- The one spelling of a routine. -/
def RoutineRecord.SpelledBy (r : RoutineRecord) (bytes : Bytes) : Prop :=
  r.code.length < 4294967296 ∧ Image.encodeRoutine r = .ok bytes

/-- The one spelling of a constant. -/
def Constant.SpelledBy (c : Constant) (bytes : Bytes) : Prop := c.Fits ∧ c.encode = bytes

/-- The spellings of a part of a unit: the count of its items, then a spelling of each. -/
inductive SpelledPart {α : Type} (Spells : α → Bytes → Prop) (items : List α) : Bytes → Prop
  | intro {parts : List Bytes} (hcount : items.length ≤ 65535)
      (hparts : List.Forall₂ Spells items parts) :
      SpelledPart Spells items (Wire.u16 items.length.toUInt16 ++ parts.flatten)

theorem SpelledPart.forall_mem {α : Type} {Spells : α → Bytes → Prop} {items : List α}
    {bytes : Bytes} {P : α → Prop} (h : SpelledPart Spells items bytes)
    (hitem : ∀ x one, Spells x one → P x) : ∀ x ∈ items, P x := by
  obtain ⟨-, hparts⟩ := h
  have hboth := hparts.imp fun x one hone => (⟨hitem x one hone, hone⟩ : P x ∧ Spells x one)
  exact ((List.forall₂_and_left _ _).mp hboth).1

/-- **The spellings of a unit**; `mark` tells whether it is strict. -/
inductive Image.SpelledBy (u : Image) : Bytes → Prop
  | intro {name source symbols fields constants routines : Bytes} {mark : UInt8}
      (hversion : u.version = currentVersion)
      (hname : Wire.name u.name = .ok name) (hsource : Wire.name u.source = .ok source)
      (hmark : (mark != 0) = u.strict)
      (hsymbols : SpelledPart (fun s bytes => Wire.name s = .ok bytes) u.symbols symbols)
      (hfields : SpelledPart Field.SpelledBy u.fields fields)
      (hconstants : SpelledPart Constant.SpelledBy u.constants constants)
      (hroutines : SpelledPart RoutineRecord.SpelledBy u.routines routines) :
      SpelledBy u (magic ++ Wire.u16 u.version ++ name ++ source ++
        mark :: (symbols ++ fields ++ constants ++ routines))

namespace Read

variable {α β : Type} {r r' : Reader} {pos : Nat} {bytes rest : Bytes}

/-! ## What was read is a spelling -/

theorem took_flag {b : Bool} (h : flag r = .ok b r') :
    ∃ mark, (mark != 0) = b ∧ r.Took r' [mark] := by
  obtain ⟨mark, r₁, hmark, h⟩ := exists_of_bind_ok h
  cases h
  exact ⟨mark, rfl, Wire.u8_eq mark ▸ took_u8 hmark⟩

/-- A part of a unit has taken its count, and then what its items have taken. -/
theorem took_part {item : Read α} {items : List α} {Spells : α → Bytes → Prop}
    (hitem : ∀ {r x r'}, item r = .ok x r' → ∃ bytes, Spells x bytes ∧ r.Took r' bytes)
    (h : part item r = .ok items r') :
    ∃ bytes, SpelledPart Spells items bytes ∧ r.Took r' bytes := by
  obtain ⟨count, r₁, hcount, h⟩ := exists_of_bind_ok h
  obtain ⟨hlength, parts, hparts, htook⟩ := took_collect hitem h
  have hlimit : items.length ≤ 65535 := by
    have := count.toNat_lt
    omega
  refine ⟨_, .intro hlimit hparts, ?_⟩
  rw [hlength, Nat.toUInt16_eq, UInt16.ofNat_toNat]
  exact (took_u16 hcount).trans htook

/-- A field after its flags, its name and its type. -/
def typedField (flags : UInt16) (name : Text) (type : ValueType) : Read Field := do
  let initial ← if ← flag then some <$> i64 else pure none
  return { flags := ⟨flags⟩, name, type, initial }

theorem field_eq : field = (do
    let flags ← u16
    let name ← Read.name
    let raw ← u8
    (ValueType.ofByte? raw).elim (throw (.format (.fieldType name))) fun type =>
      if type = .void then throw (.format (.fieldType name)) else typedField flags name type) := by
  unfold field
  refine congrArg (u16 >>= ·) (funext fun flags => ?_)
  refine congrArg (Read.name >>= ·) (funext fun name => ?_)
  refine congrArg (u8 >>= ·) (funext fun raw => ?_)
  cases ValueType.ofByte? raw with
  | none => rfl
  | some type => cases type <;> rfl

theorem took_typedField {flags : UInt16} {name : Text} {type : ValueType} {f : Field}
    (h : typedField flags name type r = .ok f r') :
    ∃ initial mark, f = { flags := ⟨flags⟩, name, type, initial } ∧
      (mark != 0) = initial.isSome ∧ r.Took r' (mark :: f.initialBytes) := by
  obtain ⟨marked, r₁, hmarked, h⟩ := exists_of_bind_ok h
  obtain ⟨mark, hmark, htook⟩ := took_flag hmarked
  -- the mark decides whether eight more bytes belong to the field
  cases marked with
  | false =>
    obtain ⟨initial, r₂, hinitial, h⟩ := exists_of_bind_ok h
    cases hinitial
    cases h
    exact ⟨none, mark, rfl, hmark, htook⟩
  | true =>
    obtain ⟨initial, r₂, hinitial, h⟩ := exists_of_bind_ok h
    obtain ⟨value, hvalue, rfl⟩ := exists_of_map_ok hinitial
    cases h
    exact ⟨some value, mark, rfl, hmark, htook.trans (took_i64 hvalue)⟩

theorem took_field {f : Field} (h : field r = .ok f r') :
    ∃ bytes, f.SpelledBy bytes ∧ r.Took r' bytes := by
  rw [field_eq] at h
  obtain ⟨flags, r₁, hflags, h⟩ := exists_of_bind_ok h
  obtain ⟨name, r₂, hname, h⟩ := exists_of_bind_ok h
  obtain ⟨raw, r₃, hraw, h⟩ := exists_of_bind_ok h
  obtain ⟨nameBytes, hencode, hnameTook⟩ := took_name hname
  cases htype : ValueType.ofByte? raw with
  | none =>
    rw [htype] at h
    cases h
  | some type =>
    rw [htype, Option.elim_some] at h
    by_cases hvoid : type = .void
    · rw [if_pos hvoid] at h
      cases h
    · rw [if_neg hvoid] at h
      have htypeTook : r₂.Took r₃ (Wire.type type) := by
        rw [Wire.type, ValueType.toByte_of_ofByte? htype]
        exact took_u8 hraw
      obtain ⟨initial, mark, rfl, hmark, htook⟩ := took_typedField h
      refine ⟨_, .intro hvoid hencode hmark, ?_⟩
      exact (((took_u16 hflags).trans hnameTook).trans htypeTook).trans htook

theorem took_routine {record : RoutineRecord} (h : routine r = .ok record r') :
    ∃ bytes, record.SpelledBy bytes ∧ r.Took r' bytes := by
  obtain ⟨flags, r₁, hflags, h⟩ := exists_of_bind_ok h
  obtain ⟨name, r₂, hname, h⟩ := exists_of_bind_ok h
  obtain ⟨descriptor, r₃, hdescriptor, h⟩ := exists_of_bind_ok h
  obtain ⟨maxStack, r₄, hmaxStack, h⟩ := exists_of_bind_ok h
  obtain ⟨maxLocals, r₅, hmaxLocals, h⟩ := exists_of_bind_ok h
  obtain ⟨length, r₆, hlength, h⟩ := exists_of_bind_ok h
  obtain ⟨code, r₇, hcode, h⟩ := exists_of_bind_ok h
  cases h
  obtain ⟨nameBytes, hnameEncode, hnameTook⟩ := took_name hname
  obtain ⟨descriptorBytes, hdescriptorEncode, hdescriptorTook⟩ := took_name hdescriptor
  obtain ⟨hcodeTook, hcount⟩ := took_take hcode
  have hlimit : code.length < 4294967296 := hcount ▸ length.toNat_lt
  have hword : length = code.length.toUInt32 := by
    rw [hcount, Nat.toUInt32_eq, UInt32.ofNat_toNat]
  have htook := (((took_u16 hflags).trans hnameTook).trans hdescriptorTook).trans
    ((took_u16 hmaxStack).trans (took_u16 hmaxLocals))
  refine ⟨_, ⟨hlimit, ?_⟩, htook.trans ((took_u32 hlength).trans hcodeTook)⟩
  rw [Image.encodeRoutine, hnameEncode, hdescriptorEncode, hword]
  simp only [List.append_assoc]
  rfl

theorem took_spelledConstant {c : Constant} (h : constant r = .ok c r') :
    ∃ bytes, c.SpelledBy bytes ∧ r.Took r' bytes := by
  obtain ⟨hfits, htook⟩ := took_constant h
  exact ⟨c.encode, ⟨hfits, rfl⟩, htook⟩

theorem took_magic {word : Bytes} (h : magic word r = .ok () r') : r.Took r' word := by
  induction word generalizing r with
  | nil =>
    cases h
    exact .refl _
  | cons b word ih =>
    obtain ⟨found, r₁, hfound, h⟩ := exists_of_bind_ok h
    by_cases hb : found = b
    · subst hb
      simp only [bne_self_eq_false, Bool.false_eq_true, if_false] at h
      exact (Wire.u8_eq found ▸ took_u8 hfound : r.Took r₁ [found]).trans (ih h)
    · have hwrong : (found != b) = true := by simpa using hb
      rw [if_pos hwrong] at h
      cases h

/-- **What was read is a spelling of what was decoded**, and nothing is left of the input. -/
theorem took_image {u : Image} (h : image r = .ok u r') :
    r'.rest = [] ∧ ∃ bytes, u.SpelledBy bytes ∧ r.Took r' bytes := by
  obtain ⟨⟨⟩, r₁, hmagic, h⟩ := exists_of_bind_ok h
  obtain ⟨version, r₂, hversion, h⟩ := exists_of_bind_ok h
  by_cases hcurrent : version = Image.currentVersion
  · subst hcurrent
    simp only [bne_self_eq_false, Bool.false_eq_true, if_false] at h
    obtain ⟨name, r₃, hname, h⟩ := exists_of_bind_ok h
    obtain ⟨source, r₄, hsource, h⟩ := exists_of_bind_ok h
    obtain ⟨strict, r₅, hstrict, h⟩ := exists_of_bind_ok h
    obtain ⟨symbols, r₆, hsymbols, h⟩ := exists_of_bind_ok h
    obtain ⟨fields, r₇, hfields, h⟩ := exists_of_bind_ok h
    obtain ⟨constants, r₈, hconstants, h⟩ := exists_of_bind_ok h
    obtain ⟨routines, r₉, hroutines, h⟩ := exists_of_bind_ok h
    obtain ⟨reader, r₁₀, hget, h⟩ := exists_of_bind_ok h
    cases hget
    by_cases hend : r₉.atEnd = true
    · have hrest : r₉.rest = [] := by
        apply List.eq_nil_of_length_eq_zero
        rw [← r₉.remaining_eq]
        exact beq_iff_eq.mp hend
      rw [if_pos hend] at h
      cases h
      obtain ⟨nameBytes, hnameEncode, hnameTook⟩ := took_name hname
      obtain ⟨sourceBytes, hsourceEncode, hsourceTook⟩ := took_name hsource
      obtain ⟨mark, hmark, hmarkTook⟩ := took_flag hstrict
      obtain ⟨symbolBytes, hsymbolsSpelled, hsymbolsTook⟩ := took_part took_name hsymbols
      obtain ⟨fieldBytes, hfieldsSpelled, hfieldsTook⟩ := took_part took_field hfields
      obtain ⟨constantBytes, hconstantsSpelled, hconstantsTook⟩ :=
        took_part took_spelledConstant hconstants
      obtain ⟨routineBytes, hroutinesSpelled, hroutinesTook⟩ := took_part took_routine hroutines
      have hhead := (((took_magic hmagic).trans (took_u16 hversion)).trans hnameTook).trans
        hsourceTook
      have htail := ((hsymbolsTook.trans hfieldsTook).trans hconstantsTook).trans hroutinesTook
      refine ⟨hrest, _, ?_, hhead.trans (hmarkTook.trans htail)⟩
      exact .intro rfl hnameEncode hsourceEncode hmark hsymbolsSpelled hfieldsSpelled
        hconstantsSpelled hroutinesSpelled
    · rw [if_neg hend] at h
      cases h
  · have hother : (version != Image.currentVersion) = true := by simpa using hcurrent
    rw [if_pos hother] at h
    cases h

/-! ## A spelling is read -/

/-- A read in front of others leaves them the bytes after its own. -/
theorem Parses.bind_eq {read : Read α} {x : α} (h : Parses read pos bytes rest x)
    (next : α → Read β) : (read >>= next) (.atOffset pos (bytes ++ rest)) =
      next x (.atOffset (pos + bytes.length) rest) := by
  unfold Parses at h
  simp only [Bind.bind, EStateM.bind, h]

/-- A routine is read back from its encoding. -/
theorem parses_routine {r : RoutineRecord} (h : Image.encodeRoutine r = .ok bytes)
    (hcode : r.code.length < 4294967296) : Parses routine pos bytes rest r := by
  obtain ⟨name, hname, h⟩ := exists_of_except_bind h
  obtain ⟨descriptor, hdescriptor, h⟩ := exists_of_except_bind h
  cases h
  simp only [List.append_assoc]
  refine Parses.bind (parses_u16 _) (Parses.bind (parses_name hname) ?_)
  refine Parses.bind (parses_name hdescriptor) (Parses.bind (parses_u16 _) ?_)
  refine Parses.bind (parses_u16 _) (Parses.bind (parses_u32 _) ?_)
  rw [toNat_toUInt32 hcode]
  exact Parses.bind_pure (parses_take r.code rest) rfl

theorem parses_magic (word : Bytes) : Parses (magic word) pos word rest () := by
  induction word generalizing pos with
  | nil => exact Parses.pure
  | cons b word ih =>
    have hbyte : [b] = Wire.u8 b := by simp [Wire.u8, Wire.digits]
    have hread : Parses (magic (b :: word)) pos (Wire.u8 b ++ word) rest () := by
      refine Parses.bind (parses_u8 b) ?_
      simpa using ih
    rwa [← hbyte, List.singleton_append] at hread

theorem parses_mark (mark : UInt8) : Parses flag pos [mark] rest (mark != 0) := by
  rw [← Wire.u8_eq]
  exact Parses.bind_pure (parses_u8 mark) rfl

/-- A part of a unit is read from each of its spellings. -/
theorem parses_spelledPart {item : Read α} {items : List α} {Spells : α → Bytes → Prop}
    (hitem : ∀ x one, Spells x one → ∀ pos rest, Parses item pos one rest x)
    (h : SpelledPart Spells items bytes) : Parses (part item) pos bytes rest items := by
  obtain ⟨hcount, hparts⟩ := h
  have hlength : items.length.toUInt16.toNat = items.length := by
    rw [Nat.toUInt16_eq, UInt16.toNat_ofNat_of_lt']
    exact Nat.lt_succ_of_le hcount
  refine Parses.bind (parses_u16 _) ?_
  rw [hlength]
  exact parses_collect (hparts.imp hitem)

theorem parses_typedField {f : Field} {mark : UInt8} (hmark : (mark != 0) = f.initial.isSome) :
    Parses (typedField f.flags.bits f.name f.type) pos (mark :: f.initialBytes) rest f := by
  obtain ⟨flags, name, type, initial⟩ := f
  have hflag := @parses_mark pos ((⟨flags, name, type, initial⟩ : Field).initialBytes ++ rest) mark
  rw [hmark] at hflag
  cases initial with
  | none => exact Parses.bind hflag (Parses.bind_pure Parses.pure rfl)
  | some value => exact Parses.bind hflag (Parses.bind_pure ((parses_i64 value).map some) rfl)

theorem parses_spelledField {f : Field} (h : f.SpelledBy bytes) :
    Parses field pos bytes rest f := by
  obtain ⟨htype, hname, hmark⟩ := h
  simp only [List.append_assoc, field_eq]
  refine Parses.bind (parses_u16 _) (Parses.bind (parses_name hname) ?_)
  refine Parses.bind (parses_u8 _) ?_
  rw [ValueType.ofByte?_toByte, Option.elim_some, if_neg htype]
  exact parses_typedField hmark

theorem parses_spelledConstant {c : Constant} (h : c.SpelledBy bytes) :
    Parses constant pos bytes rest c := by
  obtain ⟨hfits, rfl⟩ := h
  exact parses_constant hfits

/-- **A unit is read from its spelling, and nothing may follow it.** -/
theorem image_eq {u : Image} (h : u.SpelledBy bytes) (rest : Bytes) :
    image (.atOffset pos (bytes ++ rest)) =
      if rest = [] then .ok u (.atOffset (pos + bytes.length) rest)
      else .error (.format .trailingBytes) (.atOffset (pos + bytes.length) rest) := by
  cases h with
  | @intro name source symbols fields constants routines mark hversion hname hsource hmark hsymbols
      hfields hconstants hroutines =>
    have hbytes : Image.magic ++ Wire.u16 u.version ++ name ++ source ++
        mark :: (symbols ++ fields ++ constants ++ routines) ++ rest =
        Image.magic ++ (Wire.u16 u.version ++ (name ++ (source ++ ([mark] ++
          (symbols ++ (fields ++ (constants ++ (routines ++ rest)))))))) := by
      simp
    rw [hbytes]
    generalize hstop : pos + (Image.magic ++ Wire.u16 u.version ++ name ++ source ++
      mark :: (symbols ++ fields ++ constants ++ routines)).length = stop
    -- each read takes its own bytes and leaves the others to the next one
    refine (Parses.bind_eq (parses_magic _) _).trans ?_
    refine (Parses.bind_eq (parses_u16 _) _).trans ?_
    simp only [hversion, bne_self_eq_false, Bool.false_eq_true, if_false]
    refine (Parses.bind_eq (parses_name hname) _).trans ?_
    refine (Parses.bind_eq (parses_name hsource) _).trans ?_
    refine (Parses.bind_eq (parses_mark mark) _).trans ?_
    refine (Parses.bind_eq (parses_spelledPart
      (fun _ _ h _ _ => parses_name h) hsymbols) _).trans ?_
    refine (Parses.bind_eq (parses_spelledPart
      (fun _ _ h _ _ => parses_spelledField h) hfields) _).trans ?_
    refine (Parses.bind_eq (parses_spelledPart
      (fun _ _ h _ _ => parses_spelledConstant h) hconstants) _).trans ?_
    refine (Parses.bind_eq (parses_spelledPart
      (fun _ _ h _ _ => parses_routine h.2 h.1) hroutines) _).trans ?_
    have hpos : pos + Image.magic.length + (Wire.u16 Image.currentVersion).length + name.length +
        source.length + [mark].length + symbols.length + fields.length + constants.length +
        routines.length = stop := by
      rw [← hstop, hversion]
      simp only [List.length_append, List.length_cons, List.length_nil]
      omega
    rw [hpos, hmark, ← hversion]
    -- what is left of the input decides
    cases rest with
    | nil => rfl
    | cons b rest =>
      rw [if_neg (List.cons_ne_nil b rest)]
      rfl

end Read

namespace Image

variable {bytes : Bytes} {u : Image}

/-- **Bytes are decoded to a unit exactly when they spell it.** -/
theorem decode_eq_ok_iff : decode bytes = .ok u ↔ u.SpelledBy bytes := by
  constructor
  · intro h
    unfold decode Read.run at h
    split at h
    · next found r hread =>
      cases h
      obtain ⟨hrest, spelling, hspelled, htook⟩ := Read.took_image hread
      have hbytes : bytes = spelling := by
        have hall := htook.rest_eq
        rwa [hrest, List.append_nil] at hall
      exact hbytes ▸ hspelled
    · cases h
  · intro h
    have hread := @Read.image_eq 0 bytes u h []
    rw [List.append_nil, if_pos rfl] at hread
    rw [decode, Read.run, Reader.ofBytes_eq_atOffset, hread]

/-- After a spelling of a unit every further byte is refused. -/
theorem decode_append {more : Bytes} (h : u.SpelledBy bytes) (hmore : more ≠ []) :
    decode (bytes ++ more) = .error (.format .trailingBytes) := by
  have hread := @Read.image_eq 0 bytes u h more
  rw [if_neg hmore] at hread
  rw [decode, Read.run, Reader.ofBytes_eq_atOffset, hread]

end Image

end Bytecode
