import Mathlib
import Bytecode.Proofs.Image.RoundTrip
import Bytecode.Proofs.Image.Verification

/-!
# Texts that are too long

The length of a text in a constant is written in four bytes without a check, so a text whose length
is a multiple of 4294967296 is written like an empty text that the bytes of the text follow. A
reader takes these bytes for the routines. What it makes of them depends on the text: most texts
spell no routines at all, and are refused, but a text can also be made up to spell some.

## Main definitions

* `Text.zeros`: a text of a given length
* `Image.twoIdle`: a text that spells two routines of the same identity

## Main results

* `Image.exists_spelling_of_long`: what is read in place of a text that is too long
* `Image.decode_zeros`: a unit with a text of zeros that is too long cannot be read
* `Image.verify_twoIdle`: a unit in which a text is taken for two routines
-/

namespace Bytecode

/-- A text of zeros. -/
def Text.zeros (n : Nat) : Text := List.replicate n 0

theorem Text.zeros_succ (n : Nat) : Text.zeros (n + 1) = 0 :: Text.zeros n := List.replicate_succ

theorem Text.length_zeros (n : Nat) : (Text.zeros n).length = n := List.length_replicate

namespace Image

variable {u : Image} {bytes : Bytes} {s : Text}

/-- **What is read in place of a text that is too long**: an empty text, and then what the bytes of
the text and those of the routines spell together. -/
theorem exists_spelling_of_long (h : u.encode = .ok bytes) (hversion : u.version = currentVersion)
    (hfields : ∀ f ∈ u.fields, f.type ≠ .void) (hconstants : u.constants = [.string s])
    (hlength : s.length.toUInt32 = 0) :
    ∃ routines, encodePart .routines encodeRoutine u.routines = .ok routines ∧
      ∀ records spelling more, SpelledPart RoutineRecord.SpelledBy records spelling →
        s ++ routines = spelling ++ more →
        ∃ front, SpelledBy { u with constants := [.string []], routines := records } front ∧
          bytes = front ++ more := by
  obtain ⟨name, hname, h⟩ := exists_of_except_bind h
  obtain ⟨source, hsource, h⟩ := exists_of_except_bind h
  obtain ⟨symbols, hsymbols, h⟩ := exists_of_except_bind h
  obtain ⟨fields, hencoded, h⟩ := exists_of_except_bind h
  obtain ⟨constants, hpooled, h⟩ := exists_of_except_bind h
  obtain ⟨routines, hroutines, h⟩ := exists_of_except_bind h
  cases h
  obtain ⟨mark, hmark, hflag⟩ := exists_mark u.strict
  -- the long text and the empty text are written with the same length
  have hempty : (Constant.string s).encode = (Constant.string []).encode ++ s := by
    simp only [Constant.encode, Constant.encodeText, Constant.encodeCount, hlength]
    simp
  have hpool : constants = Wire.u16 1 ++ (Constant.string []).encode ++ s := by
    rw [hconstants] at hpooled
    rw [← Except.ok.inj hpooled, List.append_assoc, ← hempty]
    simp
  have hempties : SpelledPart Constant.SpelledBy [.string []]
      (Wire.u16 1 ++ (Constant.string []).encode) := by
    have hparts : List.Forall₂ Constant.SpelledBy [.string []] [(Constant.string []).encode] :=
      .cons ⟨.string (by decide), rfl⟩ .nil
    have hspelled := SpelledPart.intro (by decide) hparts
    rwa [List.flatten_singleton] at hspelled
  refine ⟨routines, hroutines, fun records spelling more hspelling hrest => ?_⟩
  refine ⟨_, .intro hversion hname hsource hmark
    (spelledPart_of_encodePart hsymbols fun _ _ _ hone => hone)
    (spelledPart_of_encodePart hencoded fun f hf _ hone =>
      spelledBy_of_encodeField hone (hfields f hf)) hempties hspelling, ?_⟩
  simp only [hflag, hpool, List.append_assoc, List.cons_append, List.nil_append, hrest]

/-- **A unit with a text of zeros that is too long cannot be read.** The text is taken for no
routines and for more bytes after the unit. -/
theorem decode_zeros {n : Nat} (h : u.encode = .ok bytes) (hversion : u.version = currentVersion)
    (hfields : ∀ f ∈ u.fields, f.type ≠ .void) (hconstants : u.constants = [.string (.zeros n)])
    (hpos : 0 < n) (hlength : n.toUInt32 = 0) :
    decode bytes = .error (.format .trailingBytes) := by
  have hmod : n % 4294967296 = 0 := by
    rw [← UInt32.toNat_ofNat', ← Nat.toUInt32_eq, hlength]
    rfl
  obtain ⟨m, rfl⟩ : ∃ m, n = m + 1 + 1 + 1 := ⟨n - 3, by omega⟩
  rw [← Text.length_zeros (m + 1 + 1 + 1)] at hlength
  obtain ⟨routines, -, hspells⟩ := exists_spelling_of_long h hversion hfields hconstants hlength
  -- two bytes of the text say that there are no routines, and there is a third one
  have hnone : SpelledPart RoutineRecord.SpelledBy [] (Wire.u16 0) := .intro (Nat.zero_le _) .nil
  have hrest : Text.zeros (m + 1 + 1 + 1) ++ routines =
      Wire.u16 0 ++ (0 :: Text.zeros m ++ routines) := by
    rw [Text.zeros_succ, Text.zeros_succ, Text.zeros_succ]
    rfl
  obtain ⟨front, hfront, rfl⟩ := hspells [] _ _ hnone hrest
  exact decode_append hfront (List.cons_ne_nil _ _)

/-! ### A text that spells routines -/

/-- A routine that does nothing, if its code says so. -/
def idleRoutine (code : Bytes) : RoutineRecord where
  flags := Flags.ofList [.isStatic]
  name := Text.zeros 64
  descriptor := "()V"
  maxStack := 0
  maxLocals := 0
  code

/-- The bytes of such a routine in front of its code, of which the length is given. -/
def idleHead (length : Nat) : Bytes :=
  Wire.u16 (Flags.ofList [.isStatic]).bits ++ (Wire.u16 64 ++ Text.zeros 64) ++
    (Wire.u16 3 ++ ("()V" : Text)) ++ Wire.u16 0 ++ Wire.u16 0 ++ Wire.u32 length.toUInt32

/-- The code of a routine that returns at once. -/
def idleCode : List (Instruction UInt32) := [⟨.returnVoid, ()⟩]

/-- Two routines of the same identity, up to the code of the second one. The first 4294967131 bytes
of this code are in the text below, and as many as is said here follow the text. -/
def idleFront (following : Nat) : Bytes :=
  Wire.u16 2 ++ (idleHead 1 ++ Code.encode idleCode) ++ idleHead (4294967131 + following)

/-- A text of 4294967296 bytes, made of equal blocks, that spells two routines of the same identity.
All blocks but the first one belong to the code of the second routine. -/
def twoIdle (following : Nat) : Text :=
  (List.replicate 16777216 (idleFront following ++ Text.zeros 91)).flatten

/-- The part of the text that is taken for code. -/
def idleRest (following : Nat) : Bytes :=
  Text.zeros 91 ++ (List.replicate 16777215 (idleFront following ++ Text.zeros 91)).flatten

theorem twoIdle_eq (following : Nat) :
    twoIdle following = idleFront following ++ idleRest following := by
  have hblocks := @List.replicate_succ _ (idleFront following ++ Text.zeros 91) 16777215
  rw [twoIdle, idleRest, hblocks, List.flatten_cons, List.append_assoc]

theorem length_idleHead (length : Nat) : (idleHead length).length = 81 := by
  have hdescriptor : ("()V" : Text).length = 3 := by decide
  simp only [idleHead, List.length_append, Wire.length_u16, Wire.length_u32, Text.length_zeros,
    hdescriptor]

theorem length_idleFront (following : Nat) : (idleFront following).length = 165 := by
  have hcode : (Code.encode idleCode).length = 1 := by decide
  simp only [idleFront, List.length_append, Wire.length_u16, length_idleHead, hcode]

theorem length_idleRest (following : Nat) : (idleRest following).length = 4294967131 := by
  simp only [idleRest, List.length_append, List.length_flatten, List.map_replicate,
    List.sum_replicate_nat, length_idleFront, Text.length_zeros]

theorem length_twoIdle (following : Nat) : (twoIdle following).length = 4294967296 := by
  rw [twoIdle_eq, List.length_append, length_idleFront, length_idleRest]

theorem encodeRoutine_idle (code : Bytes) :
    encodeRoutine (idleRoutine code) = .ok (idleHead code.length ++ code) := by
  have hname : Wire.name (Text.zeros 64) = .ok (Wire.u16 64 ++ Text.zeros 64) := by decide
  have hdescriptor : Wire.name "()V" = .ok (Wire.u16 3 ++ ("()V" : Text)) := by decide
  simp only [encodeRoutine, idleRoutine, hname, hdescriptor]
  rfl

/-- The text spells two routines together with what follows it. -/
theorem spelledPart_twoIdle {tail : Bytes} (hshort : tail.length < 165) :
    SpelledPart RoutineRecord.SpelledBy
      [idleRoutine (Code.encode idleCode), idleRoutine (idleRest tail.length ++ tail)]
      (twoIdle tail.length ++ tail) := by
  have hlength : (idleRest tail.length ++ tail).length = 4294967131 + tail.length := by
    rw [List.length_append, length_idleRest]
  have hfirst : (idleRoutine (Code.encode idleCode)).SpelledBy
      (idleHead 1 ++ Code.encode idleCode) := ⟨by decide, encodeRoutine_idle _⟩
  have hsecond : (idleRoutine (idleRest tail.length ++ tail)).SpelledBy
      (idleHead (4294967131 + tail.length) ++ (idleRest tail.length ++ tail)) := by
    refine ⟨?_, hlength ▸ encodeRoutine_idle _⟩
    show (idleRest tail.length ++ tail).length < 4294967296
    omega
  have hspelled := SpelledPart.intro (Nat.le_of_ble_eq_true rfl) (.cons hfirst (.cons hsecond .nil))
  have htwo : [idleRoutine (Code.encode idleCode),
      idleRoutine (idleRest tail.length ++ tail)].length.toUInt16 = 2 := rfl
  simpa only [twoIdle_eq, idleFront, htwo, List.flatten_cons, List.flatten_nil, List.append_nil,
    List.append_assoc] using hspelled

theorem verifyRoutine_idle (symbolCount : Nat) :
    verifyRoutine symbolCount (idleRoutine (Code.encode idleCode)) = .ok () := by
  have hsignature : Signature.ofDescriptor? (idleRoutine (Code.encode idleCode)).descriptor =
      some { result := .void, params := [] } := by decide
  have hlast : (Code.placed idleCode).getLast? = some ⟨0, 1, ⟨.returnVoid, ()⟩⟩ := rfl
  refine verifyRoutine_eq_ok hsignature (by decide) (Code.decode_encode idleCode) hlast rfl ?_
  intro p hp
  obtain rfl : p = ⟨0, 1, ⟨.returnVoid, ()⟩⟩ := List.mem_singleton.mp hp
  rfl

/-- The second routine of the same identity is reported, before anything else about it is. -/
theorem check_idle {code : Bytes} (hfields : (u.fields.map Field.name).Nodup)
    (hroutines : u.routines = [idleRoutine (Code.encode idleCode), idleRoutine code]) :
    ∃ x, u.check = .error (.duplicateRoutine x) := by
  refine ⟨(idleRoutine code).identity, ?_⟩
  rw [check, checkFields_eq_ok (fun f _ => Std.HashSet.not_mem_empty) hfields, hroutines]
  show checkRoutines u.symbols.length ∅ _ = _
  have hsecond : ((∅ : Std.HashSet Text).insert
      (idleRoutine (Code.encode idleCode)).identity).contains
        (idleRoutine code).identity = true := by
    rw [Std.HashSet.contains_insert, Bool.or_eq_true]
    exact .inl (beq_self_eq_true _)
  rw [checkRoutines, Std.HashSet.contains_empty, verifyRoutine_idle, checkRoutines, hsecond]
  rfl

/-- **A unit in which a text is taken for two routines**: they have the same identity, and this is
reported. -/
theorem verify_twoIdle {tail : Bytes} (h : u.encode = .ok bytes)
    (hversion : u.version = currentVersion) (hfields : ∀ f ∈ u.fields, f.type ≠ .void)
    (hnodup : (u.fields.map Field.name).Nodup)
    (hroutines : encodePart .routines encodeRoutine u.routines = .ok tail)
    (hshort : tail.length < 165) (hconstants : u.constants = [.string (twoIdle tail.length)]) :
    ∃ x, verify bytes = .error (.duplicateRoutine x) := by
  have hlength : (twoIdle tail.length).length.toUInt32 = 0 := by
    rw [length_twoIdle]
    decide
  obtain ⟨tail', htail, hspells⟩ := exists_spelling_of_long h hversion hfields hconstants hlength
  obtain rfl : tail = tail' := Except.ok.inj (hroutines.symm.trans htail)
  obtain ⟨front, hfront, rfl⟩ :=
    hspells _ _ [] (spelledPart_twoIdle hshort) (List.append_nil _).symm
  obtain ⟨x, hx⟩ := check_idle (u := { u with
    constants := [.string []]
    routines := [idleRoutine (Code.encode idleCode),
      idleRoutine (idleRest tail.length ++ tail)] }) hnodup rfl
  refine ⟨x, ?_⟩
  rw [verify, List.append_nil, decode_eq_ok_iff.mpr hfront]
  show (do check _; return _) = _
  rw [hx]
  rfl

end Image

end Bytecode
