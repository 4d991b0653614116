import Mathlib
import Bytecode.Image.Listing
import Bytecode.Proofs.Image.ControlFlow
import Bytecode.Proofs.Image.Spelling
import Bytecode.Proofs.Wire.Stepwise

/-!
# Input from anywhere

Nothing is known of the bytes that are decoded, verified or listed. Their counts and lengths may be
anything, and constants may nest as deep as the input is long. Still every run comes to an end: a
constant takes five bytes or more, so the bound on nesting is never reached before the input is, and
likewise for the number of instructions. A run ends in a result, or it refuses the input.

## Main results

* `Read.constantWithin_congr`, `Read.instructionsFrom_congr`: the bounds on recursion never matter
* `Read.stepwise_image`, `Read.stepwise_instructionsFrom`: decoding is put together from single
  steps
* `Image.kind_of_decode`, `Image.kind_of_verify`, `Image.kind_of_listing`: the input is all that can
  be wrong
* `Image.succeeds_listing_of_verify`: an accepted unit can be listed
* `Image.decode_resilient`: input from anywhere is handled
-/

namespace Bytecode

section Steps

variable {ε σ α β : Type} {m m' : EStateM ε σ α} {s : σ}

/-- Two steps go on alike from where the first one leads. -/
theorem bind_congr_of_ok {f g : α → EStateM ε σ β} (h : ∀ x t, m s = .ok x t → f x t = g x t) :
    (m >>= f) s = (m >>= g) s := by
  cases hm : m s with
  | ok x t => simpa only [bind, EStateM.bind, hm] using h x t hm
  | error e t => simp only [bind, EStateM.bind, hm]

theorem bind_congr_left (f : α → EStateM ε σ β) (h : m s = m' s) : (m >>= f) s = (m' >>= f) s := by
  simp only [bind, EStateM.bind, h]

end Steps

namespace Read

variable {α : Type} {r r' : Reader}

/-! ## Bounds on recursion -/

/-- Equal items make equal lists, as long as the items agree on what is left of the input. -/
theorem collectFrom_congr {item item' : Read α} {n : Nat} {done : List α}
    (hitem : ∀ s : Reader, s.remaining ≤ r.remaining → item s = item' s)
    (hless : ∀ s x s', item s = .ok x s' → s'.remaining ≤ s.remaining) :
    collectFrom item n done r = collectFrom item' n done r := by
  induction n generalizing r done with
  | zero => rfl
  | succ n ih =>
    rw [collectFrom, collectFrom]
    refine (bind_congr_of_ok fun x s hx => ?_).trans (bind_congr_left _ (hitem r le_rfl))
    exact ih fun t ht => hitem t (ht.trans (hless r x s hx))

/-- At the end of the input there is no constant, whatever bounds its nesting. -/
theorem constantWithin_at_end (fuel : Nat) (h : r.remaining = 0) :
    constantWithin fuel r = .error (.format (.truncated r.pos)) r := by
  cases fuel with
  | zero => rfl
  | succ fuel =>
    have hroom : r.remaining < 1 := by omega
    have hbyte : u8 r = .error (.format (.truncated r.pos)) r := by
      simp only [u8, word, Functor.map, EStateM.map, take, if_pos hroom]
    rw [constantWithin]
    simp only [bind, EStateM.bind, hbyte]

/-- **The bound on nesting never matters**, once it is as large as the input. -/
theorem constantWithin_congr {fuel fuel' : Nat} (h : r.remaining ≤ fuel)
    (h' : r.remaining ≤ fuel') : constantWithin fuel r = constantWithin fuel' r := by
  induction fuel generalizing fuel' r with
  | zero => rw [constantWithin_at_end 0 (by omega), constantWithin_at_end fuel' (by omega)]
  | succ fuel ih =>
    cases fuel' with
    | zero => rw [constantWithin_at_end _ (by omega), constantWithin_at_end 0 (by omega)]
    | succ fuel' =>
      rw [constantWithin, constantWithin]
      refine bind_congr_of_ok fun raw r₁ hraw => ?_
      -- the type byte is gone, so the elements need one level less
      have hbyte : r.remaining = 1 + r₁.remaining := (took_u8 hraw).remaining_eq
      cases ValueType.ofByte? raw with
      | none => rfl
      | some type =>
        cases type with
        | objectArray =>
          refine bind_congr_of_ok fun n r₂ hn => bind_congr_left _ (collectFrom_congr ?_ ?_)
          · intro s hs
            have hcount := (took_count hn).2.remaining_eq
            exact ih (by omega) (by omega)
          · intro s c s' hc
            have htook := (took_constantWithin hc).2.remaining_eq
            omega
        | _ => rfl

theorem instructionsFrom_at_end (fuel : Nat) (code : List Placed) (h : r.remaining = 0) :
    instructionsFrom fuel code r = .ok code.reverse r := by
  cases fuel with
  | zero => rfl
  | succ fuel =>
    have hend : r.atEnd = true := by rw [Reader.atEnd, h, beq_self_eq_true]
    show (if r.atEnd then _ else _ : Read (List Placed)) r = _
    rw [if_pos hend]
    rfl

/-- **The bound on the number of instructions never matters**, once it is as large as the input. -/
theorem instructionsFrom_congr {fuel fuel' : Nat} {code : List Placed} (h : r.remaining ≤ fuel)
    (h' : r.remaining ≤ fuel') : instructionsFrom fuel code r = instructionsFrom fuel' code r := by
  induction fuel generalizing fuel' code r with
  | zero => rw [instructionsFrom_at_end 0 _ (by omega), instructionsFrom_at_end fuel' _ (by omega)]
  | succ fuel ih =>
    cases fuel' with
    | zero => rw [instructionsFrom_at_end _ _ (by omega), instructionsFrom_at_end 0 _ (by omega)]
    | succ fuel' =>
      rw [instructionsFrom, instructionsFrom]
      refine bind_congr_of_ok fun reader r₀ hget => ?_
      cases hget
      by_cases hend : r.atEnd = true
      · rw [if_pos hend, if_pos hend]
      · rw [if_neg hend, if_neg hend]
        refine bind_congr_of_ok fun p r₁ hp => ?_
        have htook := (took_instruction hp).2.remaining_eq
        have hsize := p.instruction.size_pos
        rw [Instruction.length_encode] at htook
        exact ih (by omega) (by omega)

/-! ## Single steps -/

/-- A check in front of further steps. -/
theorem Stepwise.check {c : Prop} [Decidable c] {fault : FormatFault} {next : PUnit → Read α}
    (h : ∀ x, Stepwise (next x)) :
    Stepwise (if c then throw (.format fault) >>= next else next ⟨⟩) := by
  split_ifs
  · exact .bind (.fault fault) h
  · exact h ⟨⟩

theorem stepwise_longText : Stepwise longText := .bind stepwise_u32 fun _ => .take _

theorem stepwise_count (least : Nat) : Stepwise (count least) :=
  .bind stepwise_u32 fun _ => .bind .look fun _ => .check fun _ => .pure _

theorem stepwise_counted {item : Read α} (least : Nat) (f : List α → Constant)
    (h : Stepwise item) : Stepwise (do return f (← collect (← count least) item)) :=
  .bind (stepwise_count least) fun n => .bind (stepwise_collect h n) fun _ => .pure _

theorem stepwise_constantWithin (fuel : Nat) : Stepwise (constantWithin fuel) := by
  induction fuel with
  | zero => exact .bind .look fun _ => .fault _
  | succ fuel ih =>
    refine .bind stepwise_u8 fun raw => ?_
    cases ValueType.ofByte? raw with
    | none => exact .fault _
    | some type =>
      cases type with
      | string => exact .bind stepwise_longText fun _ => .pure _
      | map => exact stepwise_counted 4 _ stepwise_longText
      | intArray => exact stepwise_counted 4 _ stepwise_i32
      | longArray => exact stepwise_counted 8 _ stepwise_i64
      | numberArray => exact stepwise_counted 8 _ stepwise_number
      | objectArray => exact stepwise_counted 1 _ ih
      | _ => exact .fault _

theorem stepwise_constant : Stepwise constant := .bind .look fun _ => stepwise_constantWithin _

theorem stepwise_magic (word : Bytes) : Stepwise (magic word) := by
  induction word with
  | nil => exact .pure _
  | cons b word ih => exact .bind stepwise_u8 fun _ => .check fun _ => ih

theorem stepwise_flag : Stepwise flag := .bind stepwise_u8 fun _ => .pure _

theorem stepwise_part {item : Read α} (h : Stepwise item) : Stepwise (part item) :=
  .bind stepwise_u16 fun _ => stepwise_collect h _

theorem stepwise_typedField (flags : UInt16) (name : Text) (type : ValueType) :
    Stepwise (typedField flags name type) := by
  refine .bind stepwise_flag fun marked => ?_
  cases marked with
  | false => exact .bind (.pure none) fun _ => .pure _
  | true => exact .bind (.map some stepwise_i64) fun _ => .pure _

theorem stepwise_field : Stepwise field := by
  rw [field_eq]
  refine .bind stepwise_u16 fun flags => .bind stepwise_name fun name => ?_
  refine .bind stepwise_u8 fun raw => ?_
  cases ValueType.ofByte? raw with
  | none => exact .fault _
  | some type =>
    rw [Option.elim_some]
    split_ifs
    · exact .fault _
    · exact stepwise_typedField flags name type

theorem stepwise_routine : Stepwise routine :=
  .bind stepwise_u16 fun _ => .bind stepwise_name fun _ => .bind stepwise_name fun _ =>
    .bind stepwise_u16 fun _ => .bind stepwise_u16 fun _ => .bind stepwise_u32 fun _ =>
    .bind (.take _) fun _ => .pure _

/-- Decoding a unit is put together from single steps. -/
theorem stepwise_image : Stepwise image := by
  refine .bind (stepwise_magic _) fun _ => .bind stepwise_u16 fun version => .check fun _ => ?_
  refine .bind stepwise_name fun name => .bind stepwise_name fun source => ?_
  refine .bind stepwise_flag fun strict => .bind (stepwise_part stepwise_name) fun symbols => ?_
  refine .bind (stepwise_part stepwise_field) fun fields => ?_
  refine .bind (stepwise_part stepwise_constant) fun constants => ?_
  refine .bind (stepwise_part stepwise_routine) fun routines => .bind .look fun reader => ?_
  dsimp only
  split_ifs
  · exact .pure _
  · exact .bind (.fault _) fun _ => .pure _

theorem stepwise_type (offset : UInt32) : Stepwise (type offset) := by
  refine .bind stepwise_u8 fun raw => ?_
  cases ValueType.ofByte? raw with
  | none => exact .fault _
  | some t => exact .pure t

theorem stepwise_operand (offset : UInt32) (kind : OperandKind) :
    Stepwise (operand offset kind) := by
  cases kind with
  | none => exact .pure ()
  | type => exact stepwise_type offset
  | types =>
    exact .bind (stepwise_type offset) fun _ => .bind (stepwise_type offset) fun _ => .pure _
  | slot => exact .bind (stepwise_type offset) fun _ => .bind stepwise_u16 fun _ => .pure _
  | int32 => exact stepwise_i32
  | int64 => exact stepwise_i64
  | number => exact stepwise_number
  | symbol | size => exact stepwise_u16
  | target => exact stepwise_u32

theorem stepwise_instruction : Stepwise instruction := by
  refine .bind .look fun reader => .bind stepwise_u8 fun raw => ?_
  cases Opcode.ofByte? raw with
  | none => exact .fault _
  | some op => exact .bind (stepwise_operand _ _) fun _ => .bind .look fun _ => .pure _

/-- Decoding code is put together from single steps. -/
theorem stepwise_instructionsFrom (fuel : Nat) (code : List Placed) :
    Stepwise (instructionsFrom fuel code) := by
  induction fuel generalizing code with
  | zero => exact .pure _
  | succ fuel ih =>
    refine .bind .look fun reader => ?_
    split_ifs
    · exact .pure _
    · exact .bind stepwise_instruction fun next => ih (next :: code)

theorem Stepwise.exists_fault_of_run {read : Read α} {bytes : Bytes} {e : Error}
    (h : Stepwise read) (he : read.run bytes = .error e) : ∃ fault, e = .format fault := by
  unfold run at he
  split at he
  · cases he
  · next hread =>
    cases he
    exact h.exists_fault hread

end Read

/-! ## Refusals -/

theorem Code.exists_fault_of_decode {code : Bytes} {e : Error} (h : decode code = .error e) :
    ∃ fault, e = .format fault :=
  (Read.stepwise_instructionsFrom _ _).exists_fault_of_run h

theorem Code.kind_of_decode {code : Bytes} {e : Error} (h : decode code = .error e) :
    e.kind = .verification := by
  obtain ⟨fault, rfl⟩ := exists_fault_of_decode h
  rfl

/-- Code that is not empty has a last instruction. -/
theorem Code.ne_nil_of_decode {code : Bytes} {found : List Placed} (h : decode code = .ok found)
    (hcode : code ≠ []) : found ≠ [] := by
  obtain ⟨instructions, rfl, rfl⟩ := decode_eq_ok_iff.mp h
  cases instructions with
  | nil => exact absurd rfl hcode
  | cons i rest => exact List.cons_ne_nil _ _

namespace Image

variable {bytes : Bytes} {e : Error}

theorem exists_fault_of_decode (h : decode bytes = .error e) : ∃ fault, e = .format fault :=
  Read.stepwise_image.exists_fault_of_run h

/-- Decoding a unit refuses its input, and fails for no other reason. -/
theorem kind_of_decode (h : decode bytes = .error e) : e.kind = .verification := by
  obtain ⟨fault, rfl⟩ := exists_fault_of_decode h
  rfl

theorem checkCode_eq_error {identity : Text} {bounds : CodeBounds} {code : List Placed}
    (h : checkCode identity bounds code = .error e) :
    ∃ offset fault, e = .rejected identity offset fault := by
  induction code with
  | nil => cases h
  | cons p rest ih =>
    rw [checkCode] at h
    split at h
    · cases h
      exact ⟨_, _, rfl⟩
    · exact ih h

/-- Why a routine is turned down: it is not well formed, or its code cannot be decoded. -/
theorem verifyRoutine_eq_error {symbolCount : Nat} {r : RoutineRecord}
    (h : verifyRoutine symbolCount r = .error e) :
    (∃ offset fault, e = .rejected r.identity offset fault) ∨ ∃ fault, e = .format fault := by
  unfold verifyRoutine at h
  dsimp only at h
  split at h
  · cases h
    exact .inl ⟨_, _, rfl⟩
  · next signature hsignature =>
    split at h
    · cases h
      exact .inl ⟨_, _, rfl⟩
    · split at h
      · cases h
        exact .inl ⟨_, _, rfl⟩
      · rcases error_of_except_bind h with hdecode | ⟨code, -, h⟩
        · exact .inr (Code.exists_fault_of_decode hdecode)
        · rcases error_of_except_bind h with hcheck | ⟨_, -, h⟩
          · exact .inl (checkCode_eq_error hcheck)
          · split at h
            · cases h
              exact .inl ⟨_, _, rfl⟩
            · split at h
              · cases h
              · cases h
                exact .inl ⟨_, _, rfl⟩

theorem kind_of_checkFields {seen : Std.HashSet Text} {fields : List Field}
    (h : checkFields seen fields = .error e) : e.kind = .verification := by
  induction fields generalizing seen with
  | nil => cases h
  | cons f rest ih =>
    rw [checkFields] at h
    split at h
    · cases h
      rfl
    · exact ih h

theorem kind_of_checkRoutines {symbolCount : Nat} {seen : Std.HashSet Text}
    {routines : List RoutineRecord} (h : checkRoutines symbolCount seen routines = .error e) :
    e.kind = .verification := by
  induction routines generalizing seen with
  | nil => cases h
  | cons r rest ih =>
    rw [checkRoutines] at h
    split at h
    · cases h
      rfl
    · split at h
      · next hr =>
        cases h
        rcases verifyRoutine_eq_error hr with ⟨_, _, rfl⟩ | ⟨_, rfl⟩ <;> rfl
      · exact ih h

/-- Verification refuses its input, and fails for no other reason. -/
theorem kind_of_verify (h : verify bytes = .error e) : e.kind = .verification := by
  rcases error_of_except_bind h with hdecode | ⟨u, -, h⟩
  · exact kind_of_decode hdecode
  · rcases error_of_except_bind h with hcheck | ⟨_, -, h⟩
    · rcases error_of_except_bind hcheck with hfields | ⟨_, -, hroutines⟩
      · exact kind_of_checkFields hfields
      · exact kind_of_checkRoutines hroutines
    · cases h

/-- Listing refuses its input, and fails for no other reason. -/
theorem kind_of_listing (h : listing bytes = .error e) : e.kind = .verification := by
  rcases error_of_except_bind h with hdecode | ⟨u, -, h⟩
  · exact kind_of_decode hdecode
  · rcases error_of_except_bind h with hroutines | ⟨_, -, h⟩
    · obtain ⟨r, -, hr⟩ := exists_error_of_mapM hroutines
      rcases error_of_except_bind hr with hcode | ⟨_, -, hr⟩
      · rcases error_of_except_bind hcode with hdecode | ⟨_, -, hcode⟩
        · exact Code.kind_of_decode hdecode
        · cases hcode
      · cases hr
    · cases h

/-- **An accepted unit can be listed.** -/
theorem succeeds_listing_of_verify {u : Image} (h : verify bytes = .ok u) :
    Succeeds (listing bytes) := by
  obtain ⟨hdecode, hroutines⟩ := of_verify_eq_ok h
  unfold listing
  rw [hdecode]
  change Succeeds (u.routines.mapM (RoutineRecord.listing u.symbols.toArray) >>= _)
  rw [succeeds_bind_pure, succeeds_mapM]
  -- the code of each routine was decoded when it was verified
  intro r hr
  obtain ⟨signature, code, last, -, hcode, -⟩ := exists_of_verifyRoutine (hroutines r hr)
  rw [RoutineRecord.listing, succeeds_bind_pure, Code.listing, succeeds_bind_pure]
  exact ⟨code, hcode⟩

/-- **Input from anywhere is handled.** Decoding, verification and listing give a result or refuse
the input. They come to an end: no larger bound on the nesting of constants or on the number of
instructions would change a result. The reader never leaves its input while a unit or the code of a
routine is decoded, and code that is not empty has a last instruction to look at. Every constant,
nested or not, moves the reader on by five bytes or more. What verification accepts can be
listed. -/
theorem decode_resilient (bytes : Bytes) :
    (∀ e, decode bytes = .error e → e.kind = .verification) ∧
    (∀ e, verify bytes = .error e → e.kind = .verification) ∧
    (∀ e, listing bytes = .error e → e.kind = .verification) ∧
    (∀ (r : Reader) (fuel : Nat), r.remaining ≤ fuel →
      Read.constantWithin fuel r = Read.constant r) ∧
    (∀ (code : Bytes) (fuel : Nat), code.length ≤ fuel →
      (Read.instructionsFrom fuel []).run code = Code.decode code) ∧
    Read.Throughout (Reader.In bytes) Read.image (.ofBytes bytes) ∧
    (∀ code, Read.Throughout (Reader.In code) (Read.instructionsFrom code.length [])
      (.ofBytes code)) ∧
    (∀ code found, Code.decode code = .ok found → code ≠ [] → found ≠ []) ∧
    (∀ fuel r c r', Read.constantWithin fuel r = .ok c r' → r.pos + 5 ≤ r'.pos) ∧
    (∀ u, verify bytes = .ok u → ∃ text, listing bytes = .ok text) := by
  refine ⟨fun e => kind_of_decode, fun e => kind_of_verify, fun e => kind_of_listing, ?_, ?_,
    Read.stepwise_image.inside (Reader.in_ofBytes bytes), ?_,
    fun code found => Code.ne_nil_of_decode, ?_, fun u => succeeds_listing_of_verify⟩
  · intro r fuel hfuel
    exact Read.constantWithin_congr hfuel le_rfl
  · intro code fuel hfuel
    have hstart : (Reader.ofBytes code).remaining = code.length := rfl
    unfold Code.decode Read.run
    rw [Read.instructionsFrom_congr (hstart.trans_le hfuel) hstart.le]
  · intro code
    exact (Read.stepwise_instructionsFrom _ _).inside (Reader.in_ofBytes code)
  · intro fuel r c r' hc
    have hpos := (Read.took_constantWithin hc).2.pos_eq
    have hlength := c.five_le_length_encode
    omega

/-- A unit with one constant, an array that claims to hold `4294967295` objects. -/
def boastfulBytes : Bytes :=
  magic ++ [1, 0, 0, 0, 0, 0, 0, 0, 0, 0, 0, 1, 0, 13, 255, 255, 255, 255]

theorem boastfulBytes_resilient :
    (∃ e, decode boastfulBytes = .error e ∧ e.kind = .verification) ∧
      ∃ bytes text, verify bytes = .ok loopImage ∧ listing bytes = .ok text := by
  have hdecode : decode boastfulBytes = .error (.format .elementCount) := rfl
  obtain ⟨bytes, hbytes⟩ := exists_verify_loopImage
  obtain ⟨hrefused, -⟩ := decode_resilient boastfulBytes
  obtain ⟨-, -, -, -, -, -, -, -, -, hlisted⟩ := decode_resilient bytes
  obtain ⟨text, htext⟩ := hlisted loopImage hbytes
  exact ⟨⟨_, hdecode, hrefused _ hdecode⟩, bytes, text, hbytes, htext⟩

end Image

end Bytecode
