import Mathlib
import Bytecode.Literal
import Bytecode.Proofs.Outcome

/-!
# Reading integer literals

A literal is read from left to right, and three kinds of fault compete for its rejection. The reader
accepts exactly the literals of the grammar whose number is in range, and what it says about any
other text is decided by the leftmost position at which something is wrong. Its test for overflow
divides the room that a digit leaves, so that the test itself stays in range; a machine with words
of 64 bits that halts at the first value out of range comes to the same result.

## Main definitions

* `Literal.numeral`: the number that a row of digits denotes
* `Literal.Opens`: the whitespace and the sign before a digit run
* `Literal.Denotes`: the grammar of literals
* `Literal.OffendsAt`: what is wrong at a position of a digit run
* `Literal.Rejected`: the message for a text that is no literal
* `Literal.Machine`: reading with words of 64 bits

## Main results

* `Literal.firstOffence_iff`: before the leftmost fault there are only digits
* `Literal.ends_readDigits`: a machine reads a digit run without leaving the range of its words
* `Literal.integer_strict`: what is read, what is rejected, and what the machine does
-/

namespace Bytecode

namespace Literal

/-! ### Rows of digits -/

/-- All bytes are digits. -/
def Digits (t : Text) : Prop := ∀ b ∈ t, isDigit b = true

/-- All bytes are whitespace. -/
def Spaces (t : Text) : Prop := ∀ b ∈ t, isSpace b = true

/-- The number that a row of digits denotes. -/
def numeral (ds : Text) : Nat := Nat.ofDigits 10 (ds.reverse.map digitValue)

@[simp] theorem numeral_nil : numeral [] = 0 := rfl

theorem numeral_concat (ds : Text) (b : UInt8) :
    numeral (ds ++ [b]) = numeral ds * 10 + digitValue b := by
  simp only [numeral, List.reverse_append, List.reverse_singleton, List.singleton_append,
    List.map_cons, Nat.ofDigits_cons]
  omega

/-- More digits denote no smaller number. -/
theorem numeral_le_append (ds more : Text) : numeral ds ≤ numeral (ds ++ more) := by
  induction more using List.reverseRecOn with
  | nil => simp
  | append_singleton more b ih =>
    rw [← List.append_assoc, numeral_concat]
    omega

theorem digitValue_le {b : UInt8} (h : isDigit b = true) : digitValue b ≤ 9 := by
  have hb : b.toNat ≤ 57 := by
    simp only [isDigit, Bool.and_eq_true, decide_eq_true_eq, UInt8.le_iff_toNat_le] at h
    exact h.2
  simp only [digitValue]
  omega

/-- Digits are not whitespace. -/
theorem isSpace_eq_false {b : UInt8} (h : isDigit b = true) : isSpace b = false := by
  simp only [isDigit, Bool.and_eq_true, decide_eq_true_eq] at h
  simp only [isSpace, Bool.or_eq_false_iff, beq_eq_false_iff_ne, Bool.and_eq_false_iff,
    decide_eq_false_iff_not, UInt8.le_iff_toNat_le, ne_eq, ← UInt8.toNat_inj] at h ⊢
  have hlow : (48 : UInt8).toNat = 48 := rfl
  have hspace : (32 : UInt8).toNat = 32 := rfl
  have hreturn : (13 : UInt8).toNat = 13 := rfl
  omega

/-- **The test for overflow is exact**: there is no room left for a digit if and only if the number
with this digit is too large. -/
theorem room_lt_iff {value digit : Nat} (h : digit ≤ 9) :
    (maxValue - digit) / 10 < value ↔ maxValue < value * 10 + digit := by
  have hmax : maxValue = 9223372036854775807 := rfl
  omega

/-! ### Faults in a digit run -/

/-- What is wrong with a byte of a digit run, given what stands before and after it. -/
inductive Offends (before : Text) (b : UInt8) (after : Text) : LiteralError → Prop
  | overflow (hdigits : Digits (before ++ [b])) (hlarge : maxValue < numeral (before ++ [b])) :
      Offends before b after .overflow
  | trailing (hspace : isSpace b = true) (hafter : ¬ Spaces after) :
      Offends before b after .trailingCharacters
  | character (hspace : isSpace b = false) (hdigit : isDigit b = false) :
      Offends before b after .badCharacter

/-- What is wrong at a position of a digit run. -/
def OffendsAt (run : Text) (i : Nat) (cause : LiteralError) : Prop :=
  ∃ before b after, run = before ++ b :: after ∧ before.length = i ∧ Offends before b after cause

/-- What is wrong at the leftmost position of a digit run at which something is. -/
def FirstOffence (run : Text) (cause : LiteralError) : Prop :=
  ∃ i, OffendsAt run i cause ∧ ∀ j < i, ∀ other, ¬ OffendsAt run j other

/-- A run with a fault after digits that are not too many. -/
structure Breaks (seen run ds : Text) (b : UInt8) (rest : Text) (cause : LiteralError) : Prop where
  run_eq : run = ds ++ b :: rest
  digits : Digits ds
  le_max : numeral (seen ++ ds) ≤ maxValue
  offends : Offends (seen ++ ds) b rest cause

/-- A run of digits whose number is in range, up to the end or to whitespace. -/
structure Completes (seen run ds trail : Text) : Prop where
  run_eq : run = ds ++ trail
  digits : Digits ds
  spaces : Spaces trail
  le_max : numeral (seen ++ ds) ≤ maxValue

section Runs

variable {seen run ds rest trail : Text} {b : UInt8} {cause : LiteralError}

/-- **Before the leftmost fault there are only digits**, and the number they denote is in range. -/
theorem firstOffence_iff : FirstOffence run cause ↔ ∃ ds b rest, Breaks [] run ds b rest cause := by
  constructor
  · rintro ⟨_, ⟨before, b, after, rfl, rfl, hoffends⟩, hfirst⟩
    have hearlier : ∀ {p c q}, before = p ++ c :: q →
        ∀ other, ¬ Offends p c (q ++ b :: after) other :=
      fun {p c q} hbefore other h => hfirst p.length (by simp [hbefore]) other
        ⟨p, c, q ++ b :: after, by simp [hbefore], rfl, h⟩
    have hdigits : Digits before := by
      -- another byte would be whitespace, and so would be all that follows it
      intro c hc
      by_contra hdigit
      obtain ⟨p, q, hbefore⟩ := List.append_of_mem hc
      have hspace : isSpace c = true := by
        by_contra hspace
        exact hearlier hbefore _ (.character (by simpa using hspace) (by simpa using hdigit))
      have hspaces : Spaces (q ++ b :: after) := by
        by_contra hspaces
        exact hearlier hbefore _ (.trailing hspace hspaces)
      have hb : isSpace b = true := hspaces b (by simp)
      cases hoffends with
      | overflow hall =>
        have hdigit : isDigit b = true := hall b (by simp)
        simp [isSpace_eq_false hdigit] at hb
      | trailing _ hafter => exact hafter fun d hd => hspaces d (by simp [hd])
      | character hnot => simp [hnot] at hb
    refine ⟨before, b, after, rfl, hdigits, ?_, hoffends⟩
    rcases List.eq_nil_or_concat before with rfl | ⟨p, c, hbefore⟩
    · simp
    · by_contra hlarge
      have hlast : before = p ++ [c] := by simpa using hbefore
      rw [List.nil_append, hlast] at hlarge
      exact hearlier hlast _ (.overflow (hlast ▸ hdigits) (not_le.mp hlarge))
  · rintro ⟨ds, b, rest, rfl, hdigits, hle, hoffends⟩
    refine ⟨ds.length, ⟨ds, b, rest, rfl, rfl, hoffends⟩, ?_⟩
    rintro _ hj other ⟨before, c, after, hrun, rfl, h⟩
    -- an earlier position is one of the digits
    obtain ⟨mid, rfl, -⟩ : ∃ mid, ds = before ++ c :: mid ∧ after = mid ++ b :: rest := by
      rcases List.append_eq_append_iff.mp hrun with ⟨mid, hbefore, -⟩ | ⟨mid, hds, hmid⟩
      · simp only [hbefore, List.length_append] at hj
        omega
      · cases mid with
        | nil => simp [hds] at hj
        | cons d mid =>
          obtain ⟨rfl, rfl⟩ := List.cons.inj hmid
          exact ⟨mid, hds, rfl⟩
    have hdigit : isDigit c = true := hdigits c (by simp)
    cases h with
    | overflow _ hlarge =>
      have hmono := numeral_le_append (before ++ [c]) mid
      simp only [List.append_assoc, List.singleton_append, List.nil_append] at hmono hle hlarge
      omega
    | trailing hspace => simp [isSpace_eq_false hdigit] at hspace
    | character _ hnot => simp [hnot] at hdigit

/-- Every run breaks at some byte or completes. -/
theorem breaks_or_completes (seen run : Text) (hseen : Digits seen)
    (hle : numeral seen ≤ maxValue) : (∃ ds b rest cause, Breaks seen run ds b rest cause) ∨
      ∃ ds trail, Completes seen run ds trail := by
  -- the digits that were read so far are carried along
  induction run generalizing seen with
  | nil => exact .inr ⟨[], [], rfl, by simp [Digits], by simp [Spaces], by simpa using hle⟩
  | cons b run ih =>
    have hbreaks : ∀ {cause}, Offends seen b run cause →
        ∃ ds b' rest cause, Breaks seen (b :: run) ds b' rest cause := fun {cause} h =>
      ⟨[], b, run, cause, rfl, by simp [Digits], by simpa using hle, by simpa using h⟩
    cases hdigit : isDigit b with
    | false =>
      cases hspace : isSpace b with
      | false => exact .inl (hbreaks (.character hspace hdigit))
      | true =>
        by_cases hrun : Spaces run
        · have hall : Spaces (b :: run) := List.forall_mem_cons.mpr ⟨hspace, hrun⟩
          exact .inr ⟨[], b :: run, rfl, by simp [Digits], hall, by simpa using hle⟩
        · exact .inl (hbreaks (.trailing hspace hrun))
    | true =>
      have hmore : Digits (seen ++ [b]) := by
        intro c hc
        rcases List.mem_append.mp hc with hc | hc
        · exact hseen c hc
        · rwa [List.mem_singleton.mp hc]
      by_cases hlarge : maxValue < numeral (seen ++ [b])
      · exact .inl (hbreaks (.overflow hmore hlarge))
      · rcases ih (seen ++ [b]) hmore (not_lt.mp hlarge) with
          ⟨ds, c, rest, cause, rfl, hds, hle', hoffends⟩ | ⟨ds, trail, rfl, hds, htrail, hle'⟩
        · simp only [List.append_assoc, List.singleton_append] at hle' hoffends
          exact .inl ⟨b :: ds, c, rest, cause, rfl, List.forall_mem_cons.mpr ⟨hdigit, hds⟩, hle',
            hoffends⟩
        · simp only [List.append_assoc, List.singleton_append] at hle'
          exact .inr ⟨b :: ds, trail, rfl, List.forall_mem_cons.mpr ⟨hdigit, hds⟩, htrail, hle'⟩

/-! ### Reading a digit run -/

/-- Digits whose number is in range are read one after the other. -/
theorem digitsFrom_append (hds : Digits ds) (hle : numeral (seen ++ ds) ≤ maxValue) :
    digitsFrom (numeral seen) (ds ++ rest) = digitsFrom (numeral (seen ++ ds)) rest := by
  induction ds generalizing seen with
  | nil => simp
  | cons b ds ih =>
    obtain ⟨hdigit, hds⟩ := List.forall_mem_cons.mp hds
    have hcons : seen ++ b :: ds = (seen ++ [b]) ++ ds := by simp
    rw [hcons] at hle ⊢
    have hroom : ¬ (maxValue - digitValue b) / 10 < numeral seen := by
      have hfirst := numeral_le_append (seen ++ [b]) ds
      rw [numeral_concat] at hfirst
      rw [room_lt_iff (digitValue_le hdigit)]
      omega
    rw [← ih hds hle, List.cons_append, digitsFrom, numeral_concat]
    simp [isSpace_eq_false hdigit, hdigit, hroom]

theorem Completes.digitsFrom_eq (h : Completes seen run ds trail) :
    digitsFrom (numeral seen) run = .ok (numeral (seen ++ ds)) := by
  obtain ⟨rfl, hds, htrail, hle⟩ := h
  rw [digitsFrom_append hds hle]
  cases trail with
  | nil => rfl
  | cons b trail =>
    obtain ⟨hspace, hall⟩ := List.forall_mem_cons.mp htrail
    have htrail : trail.all isSpace = true := List.all_eq_true.mpr hall
    simp [digitsFrom, hspace, htrail]

theorem Breaks.digitsFrom_eq (h : Breaks seen run ds b rest cause) :
    digitsFrom (numeral seen) run = .error cause := by
  obtain ⟨rfl, hds, hle, hoffends⟩ := h
  rw [digitsFrom_append hds hle, digitsFrom]
  cases hoffends with
  | overflow hall hlarge =>
    have hdigit : isDigit b = true := hall b (by simp)
    have hroom : (maxValue - digitValue b) / 10 < numeral (seen ++ ds) := by
      rwa [room_lt_iff (digitValue_le hdigit), ← numeral_concat]
    simp [isSpace_eq_false hdigit, hdigit, hroom]
  | trailing hspace hafter =>
    have hrest : ¬ rest.all isSpace = true := fun hall => hafter (List.all_eq_true.mp hall)
    rw [if_pos hspace, if_neg hrest]
  | character hspace hdigit => simp [hspace, hdigit]

end Runs

/-! ### Literals -/

/-- A run does not start with a digit. -/
def Blank (run : Text) : Prop := ∀ b, run.head? = some b → isDigit b = false

/-- What a sign makes of a number. -/
inductive Signed : Text → Nat → Int → Prop
  | unsigned (m : Nat) : Signed [] m m
  | plus (m : Nat) : Signed "+" m m
  | minus (m : Nat) : Signed "-" m (-m)

/-- **The grammar of literals**: whitespace, a sign or none, one digit or more, and whitespace, with
a number in range. -/
def Denotes (t : Text) (v : Int) : Prop :=
  ∃ lead sign ds trail, t = lead ++ (sign ++ (ds ++ trail)) ∧ Spaces lead ∧ ds ≠ [] ∧ Digits ds ∧
    Spaces trail ∧ numeral ds ≤ maxValue ∧ Signed sign (numeral ds) v

/-- A text is optional whitespace and an optional sign, and then the run. Both are taken as far as
they go. -/
inductive Opens (t : Text) (run : Text) : Prop
  | signed {lead : Text} {sign : UInt8} (ht : t = lead ++ sign :: run) (hlead : Spaces lead)
      (hsign : sign = 43 ∨ sign = 45)
  | unsigned {lead : Text} (ht : t = lead ++ run) (hlead : Spaces lead)
      (hrun : ∀ b, run.head? = some b → isSpace b = false ∧ b ≠ 43 ∧ b ≠ 45)

/-- The message for a text that is not a literal. It names the leftmost fault of the digit run, if
there is a run at all. -/
inductive Rejected (t : Text) : Text → Prop
  | noDigits {run : Text} (hopens : Opens t run) (hrun : Blank run) :
      Rejected t "invalid integer literal"
  | overflow {run : Text} (hopens : Opens t run) (hrun : ¬ Blank run)
      (hfirst : FirstOffence run .overflow) : Rejected t "integer overflow"
  | trailing {run : Text} (hopens : Opens t run) (hrun : ¬ Blank run)
      (hfirst : FirstOffence run .trailingCharacters) : Rejected t "unexpected trailing characters"
  | character {run : Text} (hopens : Opens t run) (hrun : ¬ Blank run)
      (hfirst : FirstOffence run .badCharacter) : Rejected t "invalid character in integer literal"

section Reading

variable {t run lead rest : Text} {v : Int} {m : Nat} {cause : LiteralError}

theorem digits_of_blank (h : Blank run) : digits run = .error .noDigits := by
  cases run with
  | nil => rfl
  | cons b run => simp [digits, h b rfl]

theorem digits_of_not_blank (h : ¬ Blank run) : digits run = digitsFrom 0 run := by
  cases run with
  | nil => exact absurd (fun _ hb => by cases hb) h
  | cons b run =>
    have hdigit : isDigit b = true := by
      by_contra hdigit
      refine h fun c hc => ?_
      obtain rfl := Option.some.inj hc
      simpa using hdigit
    simp [digits, hdigit]

/-- A digit run is read when only whitespace follows its digits and its number is in range. -/
theorem digits_eq_ok_iff :
    digits run = .ok m ↔ ∃ ds trail, Completes [] run ds trail ∧ ds ≠ [] ∧ numeral ds = m := by
  have hnone : numeral [] ≤ maxValue := Nat.zero_le _
  constructor
  · intro h
    have hrun : ¬ Blank run := fun hblank => by
      rw [digits_of_blank hblank] at h
      cases h
    rw [digits_of_not_blank hrun] at h
    rcases breaks_or_completes [] run (by simp [Digits]) hnone with
      ⟨ds, b, rest, cause, hbreaks⟩ | ⟨ds, trail, hcompletes⟩
    · cases hbreaks.digitsFrom_eq.symm.trans h
    · have hvalue := Except.ok.inj (hcompletes.digitsFrom_eq.symm.trans h)
      refine ⟨ds, trail, hcompletes, ?_, hvalue⟩
      rintro rfl
      -- whitespace in place of the first digit
      refine hrun fun b hb => ?_
      by_contra hdigit
      rw [hcompletes.run_eq, List.nil_append] at hb
      have hspace := hcompletes.spaces b (List.mem_of_mem_head? hb)
      simp [isSpace_eq_false (by simpa using hdigit)] at hspace
  · rintro ⟨ds, trail, hcompletes, hne, rfl⟩
    have hrun : ¬ Blank run := by
      obtain ⟨b, ds, rfl⟩ := List.exists_cons_of_ne_nil hne
      intro hblank
      have hdigit := hcompletes.digits b List.mem_cons_self
      simp [hblank b (by rw [hcompletes.run_eq]; rfl)] at hdigit
    rw [digits_of_not_blank hrun]
    exact hcompletes.digitsFrom_eq

/-- A digit run is rejected for its leftmost fault, or because it does not start with a digit. -/
theorem digits_eq_error_iff : digits run = .error cause ↔
    (Blank run ∧ cause = .noDigits) ∨ (¬ Blank run ∧ FirstOffence run cause) := by
  by_cases hrun : Blank run
  · simp [digits_of_blank hrun, hrun, eq_comm]
  · rw [digits_of_not_blank hrun, firstOffence_iff]
    simp only [hrun, false_and, not_false_eq_true, true_and, false_or]
    constructor
    · intro h
      rcases breaks_or_completes [] run (by simp [Digits]) (Nat.zero_le _) with
        ⟨ds, b, rest, other, hbreaks⟩ | ⟨ds, trail, hcompletes⟩
      · obtain rfl := Except.error.inj (hbreaks.digitsFrom_eq.symm.trans h)
        exact ⟨ds, b, rest, hbreaks⟩
      · cases hcompletes.digitsFrom_eq.symm.trans h
    · rintro ⟨ds, b, rest, hbreaks⟩
      exact hbreaks.digitsFrom_eq

theorem trimStart_append (hlead : Spaces lead)
    (hrest : ∀ b, rest.head? = some b → isSpace b = false) : trimStart (lead ++ rest) = rest := by
  rw [trimStart, List.dropWhile_append_of_pos hlead]
  cases rest with
  | nil => rfl
  | cons b rest => rw [List.dropWhile_cons_of_neg (by simp [hrest b rfl])]

/-- The whitespace before a literal is all taken off. -/
theorem exists_trimStart (t : Text) : ∃ lead, t = lead ++ trimStart t ∧ Spaces lead ∧
    ∀ b, (trimStart t).head? = some b → isSpace b = false := by
  refine ⟨t.takeWhile isSpace, List.takeWhile_append_dropWhile.symm,
    fun b hb => List.mem_takeWhile_imp hb, fun b hb => ?_⟩
  have hhead := List.head?_dropWhile_not isSpace t
  rw [trimStart] at hb
  simpa [hb] using hhead

theorem splitSign_of_unsigned (h : ∀ b, run.head? = some b → b ≠ 43 ∧ b ≠ 45) :
    splitSign run = (false, run) := by
  cases run with
  | nil => rfl
  | cons b run => simp [splitSign, h b rfl]

/-- The run of a text is what is left after the whitespace and the sign. -/
theorem opens_iff : Opens t run ↔ (splitSign (trimStart t)).2 = run := by
  constructor
  · rintro (⟨rfl, hlead, hsign⟩ | ⟨rfl, hlead, hrun⟩)
    · rw [trimStart_append hlead fun b hb => by cases hb; rcases hsign with rfl | rfl <;> rfl]
      rcases hsign with rfl | rfl <;> rfl
    · rw [trimStart_append hlead fun b hb => (hrun b hb).1,
        splitSign_of_unsigned fun b hb => (hrun b hb).2]
  · rintro rfl
    obtain ⟨lead, ht, hlead, hhead⟩ := exists_trimStart t
    generalize trimStart t = trimmed at ht hhead ⊢
    cases trimmed with
    | nil => exact .unsigned ht hlead (by simp [splitSign])
    | cons b trimmed =>
      by_cases hsign : b = 43 ∨ b = 45
      · have htext : t = lead ++ b :: (splitSign (b :: trimmed)).2 := by
          rcases hsign with rfl | rfl <;> exact ht
        exact .signed htext hlead hsign
      · rw [not_or] at hsign
        have hb : ∀ c, (b :: trimmed).head? = some c → c ≠ 43 ∧ c ≠ 45 := by
          intro c hc
          obtain rfl := Option.some.inj hc
          exact hsign
        rw [splitSign_of_unsigned hb]
        exact .unsigned ht hlead fun c hc => ⟨hhead c hc, hb c hc⟩

/-- What a literal denotes, by the sign and the run. -/
theorem integer_eq (t : Text) : integer t = (digits (splitSign (trimStart t)).2).map fun m =>
    if (splitSign (trimStart t)).1 then -(m : Int) else m := by
  simp only [integer]
  cases digits (splitSign (trimStart t)).2 <;> rfl

theorem exists_splitSign (t : Text) : ∃ sign, t = sign ++ (splitSign t).2 ∧
    ∀ m : Nat, Signed sign m (if (splitSign t).1 then -(m : Int) else m) := by
  cases t with
  | nil => exact ⟨[], rfl, .unsigned⟩
  | cons b rest =>
    by_cases hplus : b = 43
    · subst hplus
      exact ⟨[43], rfl, .plus⟩
    by_cases hminus : b = 45
    · subst hminus
      exact ⟨[45], rfl, .minus⟩
    · have hsplit : splitSign (b :: rest) = (false, b :: rest) := by
        simp [splitSign, hplus, hminus]
      rw [hsplit]
      exact ⟨[], rfl, .unsigned⟩

/-- **Exactly the literals of the grammar are read.** -/
theorem integer_eq_ok_iff : integer t = .ok v ↔ Denotes t v := by
  rw [integer_eq]
  constructor
  · intro h
    cases hdigits : digits (splitSign (trimStart t)).2 with
    | error cause =>
      rw [hdigits] at h
      cases h
    | ok m =>
      rw [hdigits] at h
      obtain rfl := Except.ok.inj h
      obtain ⟨ds, trail, ⟨hrun, hds, htrail, hle⟩, hne, rfl⟩ := digits_eq_ok_iff.mp hdigits
      obtain ⟨lead, ht, hlead, -⟩ := exists_trimStart t
      obtain ⟨sign, hsign, hsigned⟩ := exists_splitSign (trimStart t)
      refine ⟨lead, sign, ds, trail, ?_, hlead, hne, hds, htrail, hle, hsigned _⟩
      rw [← hrun, ← hsign]
      exact ht
  · rintro ⟨lead, sign, ds, trail, rfl, hlead, hne, hds, htrail, hle, hsigned⟩
    have hread : digits (ds ++ trail) = .ok (numeral ds) :=
      digits_eq_ok_iff.mpr ⟨ds, trail, ⟨rfl, hds, htrail, hle⟩, hne, rfl⟩
    -- a digit is neither whitespace nor a sign
    have hfirst : ∀ b, (ds ++ trail).head? = some b → isDigit b = true := by
      obtain ⟨d, ds, rfl⟩ := List.exists_cons_of_ne_nil hne
      intro b hb
      obtain rfl := Option.some.inj hb
      exact hds d List.mem_cons_self
    have htrim : ∀ sign : Text, (∀ b, sign.head? = some b → isSpace b = false) →
        trimStart (lead ++ (sign ++ (ds ++ trail))) = sign ++ (ds ++ trail) := by
      refine fun sign hsign => trimStart_append hlead fun b hb => ?_
      cases sign with
      | nil => exact isSpace_eq_false (hfirst b hb)
      | cons c sign => exact hsign b hb
    cases hsigned with
    | unsigned =>
      have hsplit : splitSign (ds ++ trail) = (false, ds ++ trail) := by
        refine splitSign_of_unsigned fun b hb => ⟨?_, ?_⟩ <;> rintro rfl <;> cases hfirst _ hb
      rw [htrim [] (by simp), List.nil_append, hsplit, hread]
      rfl
    | plus =>
      have hsplit : splitSign ("+" ++ (ds ++ trail)) = (false, ds ++ trail) := rfl
      rw [htrim "+" fun b hb => by cases hb; rfl, hsplit, hread]
      rfl
    | minus =>
      have hsplit : splitSign ("-" ++ (ds ++ trail)) = (true, ds ++ trail) := rfl
      rw [htrim "-" fun b hb => by cases hb; rfl, hsplit, hread]
      rfl

/-- Every other text is rejected for its leftmost fault. -/
theorem integer_eq_error_iff : integer t = .error cause ↔
    ∃ run, Opens t run ∧
      ((Blank run ∧ cause = .noDigits) ∨ (¬ Blank run ∧ FirstOffence run cause)) := by
  have hmap : integer t = .error cause ↔ digits (splitSign (trimStart t)).2 = .error cause := by
    rw [integer_eq]
    cases digits (splitSign (trimStart t)).2 <;> simp [Except.map]
  simp only [opens_iff, exists_eq_left', hmap, digits_eq_error_iff]

theorem rejected_iff {message : Text} :
    Rejected t message ↔ ∃ cause, integer t = .error cause ∧ cause.message = message := by
  simp only [integer_eq_error_iff]
  constructor
  · rintro (⟨hopens, hrun⟩ | ⟨hopens, hrun, hfirst⟩ | ⟨hopens, hrun, hfirst⟩ |
      ⟨hopens, hrun, hfirst⟩)
    · exact ⟨.noDigits, ⟨_, hopens, .inl ⟨hrun, rfl⟩⟩, rfl⟩
    · exact ⟨.overflow, ⟨_, hopens, .inr ⟨hrun, hfirst⟩⟩, rfl⟩
    · exact ⟨.trailingCharacters, ⟨_, hopens, .inr ⟨hrun, hfirst⟩⟩, rfl⟩
    · exact ⟨.badCharacter, ⟨_, hopens, .inr ⟨hrun, hfirst⟩⟩, rfl⟩
  · rintro ⟨cause, ⟨run, hopens, ⟨hrun, rfl⟩ | ⟨hrun, hfirst⟩⟩, rfl⟩
    · exact .noDigits hopens hrun
    · cases cause with
      | noDigits =>
        -- no position of a run is without digits
        obtain ⟨_, ⟨_, _, _, _, _, h⟩, -⟩ := hfirst
        cases h
      | trailingCharacters => exact .trailing hopens hrun hfirst
      | badCharacter => exact .character hopens hrun hfirst
      | overflow => exact .overflow hopens hrun hfirst

end Reading

/-! ### A machine with words of 64 bits -/

/-- The variables of a machine that reads a literal: the value so far, and where the result goes. -/
structure Cells where
  value : Int
  result : Int

/-- Why the machine halts. -/
inductive Halt
  | rejected (cause : LiteralError)
  /-- A value is not a signed word of 64 bits. -/
  | outOfRange
  deriving DecidableEq

/-- A program of the machine. -/
abbrev Machine := EStateM Halt Cells

namespace Machine

/-- Keeps a value in a word. -/
def word (n : Int) : Machine Int :=
  if -0x8000000000000000 ≤ n ∧ n ≤ 0x7FFFFFFFFFFFFFFF then pure n else throw .outOfRange

/-- Reads on in a digit run. -/
def readDigits : Text → Machine Unit
  | [] => pure ()
  | b :: rest =>
    if isSpace b then
      if rest.all isSpace then pure () else throw (.rejected .trailingCharacters)
    else if !isDigit b then throw (.rejected .badCharacter)
    else do
      let digit ← word (b.toNat - 48)
      let room ← word (maxValue - digit)
      let bound ← word (room / 10)
      if bound < (← get).value then throw (.rejected .overflow)
      let scaled ← word ((← get).value * 10)
      let value ← word (scaled + digit)
      modify fun cells => { cells with value }
      readDigits rest

/-- Reads a literal. -/
def readInteger (t : Text) : Machine Unit := do
  let signed := splitSign (trimStart t)
  modify fun cells => { cells with value := 0 }
  unless signed.2.head?.any isDigit do throw (.rejected .noDigits)
  readDigits signed.2
  let value := (← get).value
  let result ← if signed.1 then word (-value) else pure value
  modify fun cells => { cells with result }

theorem word_eq {n : Int} (hlow : -0x8000000000000000 ≤ n) (hhigh : n ≤ 0x7FFFFFFFFFFFFFFF) :
    word n = pure n := if_pos ⟨hlow, hhigh⟩

/-- **A digit run is read within the range of words.** -/
theorem ends_readDigits {value : Nat} {cells : Cells} (run : Text) (hle : value ≤ maxValue)
    (hcells : cells.value = value) :
    Ends (readDigits run) cells
      (fun _ c => ∃ m : Nat, digitsFrom value run = .ok m ∧ m ≤ maxValue ∧
        c = { cells with value := m })
      fun halt c => ∃ cause, halt = .rejected cause ∧ digitsFrom value run = .error cause ∧
        c.result = cells.result := by
  have hmax : maxValue = 9223372036854775807 := rfl
  induction run generalizing value cells with
  | nil => exact ⟨value, rfl, hle, by rw [← hcells]⟩
  | cons b rest ih =>
    rw [readDigits, digitsFrom]
    cases hspace : isSpace b with
    | true =>
      simp only [if_true]
      split
      · exact Ends.pure ⟨value, rfl, hle, by rw [← hcells]⟩
      · exact Ends.throw ⟨_, rfl, rfl, rfl⟩
    | false =>
      cases hdigit : isDigit b with
      | false => exact Ends.throw ⟨_, rfl, rfl, rfl⟩
      | true =>
        have hvalue : ((b.toNat : Int) - 48) = (digitValue b : Int) := by
          simp only [isDigit, Bool.and_eq_true, decide_eq_true_eq, UInt8.le_iff_toNat_le] at hdigit
          have hlow : 48 ≤ b.toNat := hdigit.1
          simp only [digitValue]
          omega
        have hnine := digitValue_le hdigit
        have hexact : (maxValue - digitValue b) / 10 < value ↔
            maxValue < value * 10 + digitValue b := room_lt_iff hnine
        simp only [Bool.not_true, Bool.false_eq_true, if_false, hvalue]
        rw [word_eq (by omega) (by omega), pure_bind, word_eq (by omega) (by omega), pure_bind,
          word_eq (by omega) (by omega), pure_bind]
        refine Ends.bind (Ends.get ?_)
        rw [hcells]
        -- the bound is a quotient of integers here, and of natural numbers in the reader
        by_cases hroom : (maxValue - digitValue b) / 10 < value
        · have hbound : ((maxValue : Int) - digitValue b) / 10 < value := by omega
          rw [if_pos hbound, if_pos hroom]
          exact Ends.bind (Ends.throw ⟨_, rfl, rfl, rfl⟩)
        · have hbound : ¬ ((maxValue : Int) - digitValue b) / 10 < value := by omega
          have hnext : value * 10 + digitValue b ≤ maxValue := by omega
          rw [if_neg hbound, if_neg hroom]
          refine Ends.bind (Ends.get ?_)
          rw [hcells, word_eq (by omega) (by omega), pure_bind, word_eq (by omega) (by omega),
            pure_bind]
          refine Ends.bind (Ends.modify ?_)
          exact ih hnext (by push_cast; rfl)

/-- A literal is read within the range of words, and the result is changed only when it is. -/
theorem ends_readInteger (t : Text) (cells : Cells) :
    Ends (readInteger t) cells (fun _ c => integer t = .ok c.result)
      fun halt c => ∃ cause, halt = .rejected cause ∧ integer t = .error cause ∧
        c.result = cells.result := by
  have hmax : maxValue = 9223372036854775807 := rfl
  rw [integer_eq]
  unfold readInteger
  generalize splitSign (trimStart t) = signed
  obtain ⟨negative, run⟩ := signed
  refine Ends.bind (Ends.modify ?_)
  dsimp only
  by_cases hrun : Blank run
  · have hnone : run.head?.any isDigit = false := by
      cases run with
      | nil => rfl
      | cons b run => exact hrun b rfl
    rw [hnone, digits_of_blank hrun]
    exact Ends.bind (Ends.throw ⟨_, rfl, rfl, rfl⟩)
  · have hsome : run.head?.any isDigit = true := by
      by_contra hsome
      exact hrun fun b hb => by simpa [hb] using hsome
    rw [hsome, digits_of_not_blank hrun]
    refine Ends.bind ((ends_readDigits run (Nat.zero_le _) rfl).mono ?_ ?_)
    · rintro - _ ⟨m, hm, hle, rfl⟩
      refine Ends.bind (Ends.get ?_)
      cases negative with
      | true =>
        dsimp only
        rw [if_pos rfl, word_eq (by omega) (by omega)]
        refine Ends.bind (Ends.pure (Ends.modify ?_))
        rw [hm]
        rfl
      | false =>
        refine Ends.bind (Ends.pure (Ends.modify ?_))
        rw [hm]
        rfl
    · rintro _ c ⟨cause, rfl, hcause, hresult⟩
      exact ⟨cause, rfl, by rw [hcause]; rfl, hresult⟩

end Machine

/-- **Integer literals are read strictly.** A text is read exactly if it is a literal of the grammar
with a number in range, and is given its value. Any other text is rejected with a message, which
says that there are no digits when none follows the optional whitespace and the optional sign, and
otherwise names what is wrong at the leftmost faulty position of the digit run. A machine with words
of 64 bits does the same: it never halts because a value is out of range, and when a text is
rejected, the variable for the result is as it was. -/
theorem integer_strict (t : Text) (cells : Cells) :
    (∀ v, integer t = .ok v ↔ Denotes t v) ∧
      (∀ message, (∃ cause, integer t = .error cause ∧ cause.message = message) ↔
        Rejected t message) ∧
      Ends (Machine.readInteger t) cells (fun _ c => integer t = .ok c.result)
        fun halt c => ∃ cause, halt = .rejected cause ∧ integer t = .error cause ∧
          c.result = cells.result :=
  ⟨fun _ => integer_eq_ok_iff, fun _ => rejected_iff.symm, Machine.ends_readInteger t cells⟩

-- the least word of 64 bits is refused, since its digits alone are out of range
example : integer "-9223372036854775808" = .error .overflow := by decide

end Literal

end Bytecode
