import Mathlib
import Bytecode.Proofs.Image.Resilience

/-!
# Reports of duplicate routines

A unit that was just encoded is decoded and verified at once. The names of its fields may differ and
still the decoder refuses it, since a field can be void. But it cannot be taken for another unit:
what is decoded, if anything, is the unit that was encoded. So a duplicate routine is reported only
if two routines of that unit have the same identity.

## Main definitions

* `Read.Agrees`: a read gives a certain value, if it gives any

## Main results

* `Read.agrees_image`: nothing but the unit is read from its encoding
* `Image.eq_of_decode_encode`: nothing but the unit is decoded from its encoding
* `Image.verify_ne_duplicateRoutine`: no duplicate is reported when the identities differ
-/

namespace Bytecode

namespace Read

variable {α β : Type} {pos : Nat} {bytes more rest : Bytes} {x : α} {y : β}

/-- The read takes `bytes` and gives `x`, unless it fails. -/
def Agrees (read : Read α) (pos : Nat) (bytes rest : Bytes) (x : α) : Prop :=
  ∀ z r, read (.atOffset pos (bytes ++ rest)) = .ok z r →
    z = x ∧ r = .atOffset (pos + bytes.length) rest

theorem Parses.agrees {read : Read α} (h : Parses read pos bytes rest x) :
    Agrees read pos bytes rest x := by
  intro z r hrun
  rw [Parses] at h
  cases h.symm.trans hrun
  exact ⟨rfl, rfl⟩

namespace Agrees

theorem bind {read : Read α} {next : α → Read β} (h : Agrees read pos bytes (more ++ rest) x)
    (hnext : Agrees (next x) (pos + bytes.length) more rest y) :
    Agrees (read >>= next) pos (bytes ++ more) rest y := by
  intro z r hrun
  rw [List.append_assoc] at hrun
  obtain ⟨x', r', hread, hrest⟩ := exists_of_bind_ok hrun
  obtain ⟨rfl, rfl⟩ := h x' r' hread
  obtain ⟨rfl, rfl⟩ := hnext z r hrest
  rw [List.length_append, Nat.add_assoc]
  exact ⟨rfl, rfl⟩

theorem eq_of_run {read : Read α} {z : α} (h : Agrees read 0 bytes [] x)
    (hrun : read.run bytes = .ok z) : z = x := by
  unfold run at hrun
  split at hrun
  · next hread =>
    cases hrun
    rw [Reader.ofBytes_eq_atOffset, ← List.append_nil bytes] at hread
    exact (h _ _ hread).1
  · cases hrun

end Agrees

theorem agrees_collectFrom {item : Read α} {xs : List α} {parts : List Bytes} (done : List α)
    (h : List.Forall₂ (fun x part => ∀ pos rest, Agrees item pos part rest x) xs parts) :
    Agrees (collectFrom item xs.length done) pos parts.flatten rest (done.reverse ++ xs) := by
  induction h generalizing pos done with
  | nil =>
    rw [List.append_nil]
    exact Parses.pure.agrees
  | @cons x part xs parts hx _ ih =>
    refine Agrees.bind (hx _ _) ?_
    simpa using ih (x :: done)

theorem agrees_part {part : Section} {item : Read α} {encode : α → Except Error Bytes}
    {items : List α} (h : Image.encodePart part encode items = .ok bytes)
    (hitem : ∀ x ∈ items, ∀ one, encode x = .ok one → ∀ pos rest, Agrees item pos one rest x) :
    Agrees (Read.part item) pos bytes rest items := by
  unfold Image.encodePart at h
  split at h
  · cases h
  · next hcount =>
    obtain ⟨parts, hparts, h⟩ := exists_of_except_bind h
    cases h
    have hlength : items.length.toUInt16.toNat = items.length := by
      rw [Nat.toUInt16_eq, UInt16.toNat_ofNat_of_lt']
      exact Nat.lt_succ_of_le (Nat.le_of_not_lt hcount)
    refine Agrees.bind (parses_u16 _).agrees ?_
    rw [hlength]
    refine agrees_collectFrom [] ?_
    refine List.Forall₂.imp ?_ ((List.forall₂_and_left _ _).mpr ⟨hitem, forall₂_of_mapM hparts⟩)
    intro x one hx
    exact hx.1 one hx.2

/-- A void field is refused, and any other is read back. -/
theorem agrees_field {f : Field} (h : Image.encodeField f = .ok bytes) :
    Agrees field pos bytes rest f := by
  by_cases htype : f.type = .void
  · obtain ⟨name, hname, h⟩ := exists_of_except_bind h
    cases h
    simp only [List.append_assoc]
    rw [field_eq]
    refine Agrees.bind (parses_u16 _).agrees (Agrees.bind (parses_name hname).agrees ?_)
    refine Agrees.bind (parses_u8 _).agrees ?_
    rw [ValueType.ofByte?_toByte, Option.elim_some, if_pos htype]
    rintro z r ⟨⟩
  · exact (parses_spelledField (Image.spelledBy_of_encodeField h htype)).agrees

/-- **Nothing but the unit is read from its encoding.** -/
theorem agrees_image {u : Image} (h : u.encode = .ok bytes)
    (hversion : u.version = Image.currentVersion) (hconstants : ∀ c ∈ u.constants, c.Fits)
    (hcode : ∀ r ∈ u.routines, r.code.length < 4294967296) :
    Agrees image pos bytes [] u := by
  obtain ⟨name, hname, h⟩ := exists_of_except_bind h
  obtain ⟨source, hsource, h⟩ := exists_of_except_bind h
  obtain ⟨symbols, hsymbols, h⟩ := exists_of_except_bind h
  obtain ⟨fields, hfields, h⟩ := exists_of_except_bind h
  obtain ⟨constants, hconstants', h⟩ := exists_of_except_bind h
  obtain ⟨routines, hroutines, h⟩ := exists_of_except_bind h
  cases h
  obtain ⟨mark, hmark, hflag⟩ := Image.exists_mark u.strict
  simp only [hflag, List.append_assoc]
  refine Agrees.bind (parses_magic _).agrees (Agrees.bind (parses_u16 _).agrees ?_)
  simp only [hversion, bne_self_eq_false, Bool.false_eq_true, if_false]
  refine Agrees.bind (parses_name hname).agrees (Agrees.bind (parses_name hsource).agrees ?_)
  refine Agrees.bind (parses_mark mark).agrees ?_
  have hnames := Image.spelledPart_of_encodePart hsymbols fun _ _ _ hone => hone
  refine Agrees.bind (parses_spelledPart (fun _ _ h _ _ => parses_name h) hnames).agrees ?_
  refine Agrees.bind (agrees_part hfields fun f _ _ hone _ _ => agrees_field hone) ?_
  -- what comes after the fields cannot be refused
  have hpooled := Image.spelledPart_of_encodePart hconstants' fun c hc _ hone =>
    Image.spelledBy_of_encoded hone (hconstants c hc)
  have hrecords : SpelledPart RoutineRecord.SpelledBy u.routines routines :=
    Image.spelledPart_of_encodePart hroutines fun r hr _ hone => ⟨hcode r hr, hone⟩
  refine Parses.agrees (Parses.bind (parses_spelledPart
    (fun _ _ h _ _ => parses_spelledConstant h) hpooled) ?_)
  rw [← List.append_nil routines]
  refine Parses.bind (parses_spelledPart (fun _ _ h _ _ => parses_routine h.2 h.1) hrecords)
    (Parses.get ?_)
  rw [List.append_nil, Reader.atEnd_atOffset, hmark, ← hversion]
  exact Parses.pure

end Read

namespace Image

variable {u v : Image} {bytes : Bytes}

/-- **Nothing but the unit is decoded from its encoding.** -/
theorem eq_of_decode_encode (h : u.encode = .ok bytes) (hversion : u.version = currentVersion)
    (hconstants : ∀ c ∈ u.constants, c.Fits)
    (hcode : ∀ r ∈ u.routines, r.code.length < 4294967296) (hdecode : decode bytes = .ok v) :
    v = u :=
  (Read.agrees_image h hversion hconstants hcode).eq_of_run hdecode

theorem checkFields_ne_duplicateRoutine {seen : Std.HashSet Text} {fields : List Field} {x : Text} :
    checkFields seen fields ≠ .error (.duplicateRoutine x) := by
  induction fields generalizing seen with
  | nil => rintro ⟨⟩
  | cons f rest ih =>
    rw [checkFields]
    split
    · rintro ⟨⟩
    · exact ih

theorem checkRoutines_ne_duplicateRoutine {symbolCount : Nat} {seen : Std.HashSet Text}
    {routines : List RoutineRecord} {x : Text} (hnew : ∀ r ∈ routines, r.identity ∉ seen)
    (hnodup : (routines.map RoutineRecord.identity).Nodup) :
    checkRoutines symbolCount seen routines ≠ .error (.duplicateRoutine x) := by
  induction routines generalizing seen with
  | nil => rintro ⟨⟩
  | cons r rest ih =>
    rw [List.map_cons, List.nodup_cons] at hnodup
    have hr : seen.contains r.identity = false := by simpa using hnew r List.mem_cons_self
    rw [checkRoutines, hr]
    cases hverify : verifyRoutine symbolCount r with
    | ok _ => exact ih (notMem_insert_of_distinct hnew hnodup.1) hnodup.2
    | error e =>
      -- a routine by itself is not turned down for being there twice
      rcases verifyRoutine_eq_error hverify with ⟨_, _, rfl⟩ | ⟨_, rfl⟩ <;> rintro ⟨⟩

/-- **No duplicate routine is reported for what was encoded**, when the identities differ. -/
theorem verify_ne_duplicateRoutine {x : Text} (h : u.encode = .ok bytes)
    (hversion : u.version = currentVersion) (hconstants : ∀ c ∈ u.constants, c.Fits)
    (hcode : ∀ r ∈ u.routines, r.code.length < 4294967296)
    (hnodup : (u.routines.map RoutineRecord.identity).Nodup) :
    verify bytes ≠ .error (.duplicateRoutine x) := by
  intro hverify
  rcases error_of_except_bind hverify with hdecode | ⟨v, hdecode, hverify⟩
  · obtain ⟨fault, heq⟩ := exists_fault_of_decode hdecode
    cases heq
  · obtain rfl := eq_of_decode_encode h hversion hconstants hcode hdecode
    rcases error_of_except_bind hverify with hcheck | ⟨_, -, hpure⟩
    · rcases error_of_except_bind hcheck with hfields | ⟨_, -, hroutines⟩
      · exact checkFields_ne_duplicateRoutine hfields
      · exact checkRoutines_ne_duplicateRoutine (fun r _ => Std.HashSet.not_mem_empty) hnodup
          hroutines
    · cases hpure

end Image

end Bytecode
