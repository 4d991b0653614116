import Mathlib
import Bytecode.Proofs.Assembly.Transcript

/-!
# Renumbered symbols

The index of a symbol depends on what was interned before it, in this routine or in another one of
the unit. Nothing but the index does: a request that is granted in one assembly is granted in every
other one that agrees with it in all but the instructions behind it and the symbols, as long as
there is room for the member that it names. The two assemblies agree then in the same way, and their
code is the same once the index of each symbol is replaced by its text.

## Main definitions

* `Instruction.named`: an instruction with texts in place of the indices of symbols
* `Assembly.Abreast`: two assemblies that agree in all but instructions and symbols
* `Emit.Matches`: two steps that keep assemblies abreast
* `Assembly.Like`: two assemblies that differ in the numbers of symbols only

## Main results

* `Emit.matches_apply`: a request that names no member keeps assemblies abreast
* `Emit.exists_request_abreast`: so does one that names a member, if there is room for it
* `Emit.exists_request_like`: a granted request is granted with other numbers, too
* `Assembly.Like.renumbers`: finished code differs in the numbers of symbols only
-/

namespace Bytecode

/-! ### Instructions with names -/

/-- Operands with texts in place of the indices of symbols. -/
def NamedOperand (Target : Type) : OperandKind → Type
  | .symbol => Option Text
  | kind => Operand Target kind

/-- An operation with named operands. -/
structure NamedInstruction (Target : Type) where
  op : Opcode
  operand : NamedOperand Target op.operands

/-- Replaces the index of a symbol by its text. -/
def Operand.named {α : Type} (names : List Text) :
    (kind : OperandKind) → Operand α kind → NamedOperand α kind
  | .symbol, i => names[UInt16.toNat i]?
  | .none, x => x
  | .type, x => x
  | .types, x => x
  | .slot, x => x
  | .int32, x => x
  | .int64, x => x
  | .number, x => x
  | .size, x => x
  | .target, x => x

/-- Replaces a jump target. -/
def NamedOperand.map {α β : Type} (f : α → β) :
    (kind : OperandKind) → NamedOperand α kind → NamedOperand β kind
  | .target, x => f x
  | .none, x => x
  | .type, x => x
  | .types, x => x
  | .slot, x => x
  | .int32, x => x
  | .int64, x => x
  | .number, x => x
  | .symbol, x => x
  | .size, x => x

/-- Replaces a jump target. -/
def NamedInstruction.map {α β : Type} (f : α → β) (i : NamedInstruction α) : NamedInstruction β :=
  ⟨i.op, NamedOperand.map f i.op.operands i.operand⟩

namespace Instruction

variable {α β : Type} {names names' more : List Text}

/-- The instruction with the text of its symbol in place of the index. -/
def named (names : List Text) (i : Instruction α) : NamedInstruction α :=
  ⟨i.op, Operand.named names i.op.operands i.operand⟩

theorem named_map (names : List Text) (f : α → β) (i : Instruction α) :
    (i.map f).named names = (i.named names).map f := by
  obtain ⟨op, operand⟩ := i
  cases op <;> rfl

/-- An index into a table that only grows keeps its text. -/
theorem named_of_prefix {i : Instruction α} (hgrown : names <+: more)
    (hi : ∀ n, i.symbol? = some n → n.toNat < names.length) : i.named more = i.named names := by
  have hlookup : ∀ n : UInt16, i.symbol? = some n → more[n.toNat]? = names[n.toNat]? := by
    intro n hn
    obtain ⟨rest, rfl⟩ := hgrown
    exact List.getElem?_append_left (hi n hn)
  obtain ⟨op, operand⟩ := i
  cases op with
  | getStatic => exact congrArg (NamedInstruction.mk .getStatic) (hlookup operand rfl)
  | putStatic => exact congrArg (NamedInstruction.mk .putStatic) (hlookup operand rfl)
  | invoke => exact congrArg (NamedInstruction.mk .invoke) (hlookup operand rfl)
  | _ => rfl

end Instruction

/-- What a request writes is the same up to the index of its member. -/
theorem Emission.named_instruction (e : Emission) (types : List ValueType) (result : ValueType)
    {symbol symbol' : UInt16} {names names' : List Text}
    (h : ∀ text, e.member? = some text → names[symbol.toNat]? = names'[symbol'.toNat]?) :
    (e.instruction types result symbol).named names =
      (e.instruction types result symbol').named names' := by
  cases e with
  | getStatic owner name type =>
    exact congrArg (NamedInstruction.mk .getStatic) (h _ rfl)
  | putStatic owner name type =>
    exact congrArg (NamedInstruction.mk .putStatic) (h _ rfl)
  | invoke owner name signature =>
    exact congrArg (NamedInstruction.mk .invoke) (h _ rfl)
  | pushBoolean value => cases value <;> rfl
  | arithmetic op type => cases op <;> rfl
  | _ => rfl

/-! ### Assemblies abreast -/

/-- Code of the given size, with offsets missing in the given places. -/
structure Recoding (fixups : List Fixup) (size : Nat) where
  code : Buffer
  fillable : Fixup.Fillable code fixups
  newest : List (Instruction Nat)
  size_eq : code.size = Code.size newest
  size_same : code.size = size

/-- Other code of the same size, with offsets missing in the same places. -/
abbrev Assembler.Recoding (a : Assembler) := Bytecode.Recoding a.fixups a.size

/-- The assembler with other code. -/
def Assembler.recode (a : Assembler) (r : a.Recoding) : Assembler :=
  { a with code := r.code, fillable := r.fillable, newest := r.newest, size_eq := r.size_eq }

@[simp] theorem Assembler.size_recode (a : Assembler) (r : a.Recoding) :
    (a.recode r).size = a.size := r.size_same

/-- The two assemblies agree in all but instructions and symbols. -/
def Assembly.Abreast (s s' : Assembly) : Prop :=
  ∃ r : s.assembler.Recoding, s'.assembler = s.assembler.recode r

/-- An offset is missing in the same place, whatever the code before it is. -/
theorem Assembler.append_recode (a : Assembler) (r : a.Recoding) {i i' : Instruction Nat}
    (hsize : i'.size = i.size) (htarget : i'.target? = i.target?) :
    ∃ r' : (a.append i).Recoding, (a.recode r).append i' = (a.append i).recode r' := by
  have hnoted : (a.recode r).noted i' = a.noted i := by
    rw [noted, noted, missing?, missing?, htarget, size_recode]
    rfl
  have hfill := (a.recode r).fillable_append i'
  rw [hnoted] at hfill
  have hsame : (r.code.append (i'.map a.offsetOf).encode).size = (a.append i).size := by
    rw [size_append, Buffer.size_append, Instruction.length_encode, Instruction.size_map,
      r.size_same, hsize]
  refine ⟨⟨_, hfill, i' :: r.newest, ((a.recode r).append i').size_eq, hsame⟩, ?_⟩
  simp only [append, hnoted]
  rfl

namespace Emit

variable {α β : Type} {m m' : Emit α} {f f' : α → Emit β}

/-- Two steps that keep assemblies abreast when the first one gives a value: the second one gives
the same value, and interns nothing. -/
def Matches (m m' : Emit α) : Prop :=
  ∀ s s' : Assembly, s.Abreast s' → ∀ x t, m s = .ok x t →
    ∃ t', m' s' = .ok x t' ∧ t.Abreast t' ∧ t'.symbols = s'.symbols

theorem Matches.pure (x : α) : Matches (Pure.pure x) (Pure.pure x) := by
  rintro s s' hs _ _ ⟨⟩
  exact ⟨s', rfl, hs, rfl⟩

theorem Matches.bind (hm : Matches m m') (hf : ∀ x, Matches (f x) (f' x)) :
    Matches (m >>= f) (m' >>= f') := by
  intro s s' hs y u h
  obtain ⟨x, t, hx, hy⟩ := exists_of_bind_ok h
  obtain ⟨t', hx', ht, hsymbols⟩ := hm s s' hs x t hx
  obtain ⟨u', hy', hu, hsymbols'⟩ := hf x t t' ht y u hy
  refine ⟨u', ?_, hu, hsymbols'.trans hsymbols⟩
  simpa only [Bind.bind, EStateM.bind, hx'] using hy'

theorem Matches.map (g : α → β) (hm : Matches m m') : Matches (g <$> m) (g <$> m') := by
  have h := hm.bind fun x => Matches.pure (g x)
  simpa only [bind_pure_comp] using h

/-- What is read of an assembly is the same in assemblies abreast. -/
theorem Matches.get {k : Assembly → Emit β} (hk : ∀ s, Matches (k s) (k s))
    (hsame : ∀ (s : Assembly) r symbols, k ⟨s.assembler.recode r, symbols⟩ = k s) :
    Matches (MonadState.get >>= k) (MonadState.get >>= k) := by
  intro s s' hs x t h
  have hread : k s' = k s := by
    obtain ⟨r, hs⟩ := hs
    rw [← hsame s r s'.symbols, ← hs]
  change k s s = .ok x t at h
  change ∃ t', k s' s' = .ok x t' ∧ _
  rw [hread]
  exact hk s s s' hs x t h

/-- A step that gives no value has nothing to match. -/
theorem matches_fail (fault : TypingFault) : Matches (fail fault : Emit α) m' := by
  rintro s s' - x t ⟨⟩

theorem matches_fail_bind (fault : TypingFault) (f : β → Emit α) :
    Matches (fail fault >>= f) m' := by
  rintro s s' - x t ⟨⟩

theorem matches_refuse (fault : RoutineFault) : Matches (refuse fault : Emit α) m' := by
  rintro s s' - x t ⟨⟩

theorem matches_refuse_bind (fault : RoutineFault) (f : β → Emit α) :
    Matches (refuse fault >>= f) m' := by
  rintro s s' - x t ⟨⟩

/-- A change that has nothing to do with the instructions. -/
theorem matches_update {g : Assembler → Assembler}
    (hg : ∀ a (r : a.Recoding), ∃ r', g (a.recode r) = (g a).recode r') :
    Matches (update g) (update g) := by
  rintro s s' ⟨r, hs⟩ _ _ ⟨⟩
  obtain ⟨r', hg⟩ := hg s.assembler r
  refine ⟨_, rfl, ⟨r', ?_⟩, rfl⟩
  show g s'.assembler = _
  rw [hs, hg]

theorem matches_updateLabel (label : Nat) (g : LabelState → LabelState) :
    Matches (updateLabel label g) (updateLabel label g) := matches_update fun _ r => ⟨r, rfl⟩

theorem matches_terminate : Matches terminate terminate := matches_update fun _ r => ⟨r, rfl⟩

theorem matches_openCode : Matches openCode openCode := matches_update fun _ r => ⟨r, rfl⟩

theorem matches_close : Matches close close := matches_update fun _ r => ⟨r, rfl⟩

theorem matches_write {i i' : Instruction Nat} (hsize : i'.size = i.size)
    (htarget : i'.target? = i.target?) : Matches (write i) (write i') := by
  rintro s s' ⟨r, hs⟩ _ _ ⟨⟩
  obtain ⟨r', happend⟩ := s.assembler.append_recode r hsize htarget
  exact ⟨_, rfl, ⟨r', by rw [← happend, ← hs]⟩, rfl⟩

theorem matches_onStack (request : OnStack α) : Matches (onStack request) (onStack request) := by
  rintro s s' ⟨r, hs⟩ x t hx
  have hstack : s'.assembler.stack = s.assembler.stack := by rw [hs]; rfl
  unfold onStack at hx ⊢
  rw [hstack]
  cases hrequest : request s.assembler.stack with
  | ok found =>
    rw [hrequest] at hx
    cases hx
    exact ⟨_, rfl, ⟨r, by simp only [hs]; rfl⟩, rfl⟩
  | error fault =>
    rw [hrequest] at hx
    cases hx

theorem matches_push (t : ValueType) : Matches (push t) (push t) := matches_onStack _

theorem matches_pop (t : ValueType) : Matches (pop t) (pop t) := (matches_onStack _).map _

theorem matches_popAll (types : List ValueType) : Matches (types.forM pop) (types.forM pop) := by
  induction types with
  | nil => exact .pure PUnit.unit
  | cons t types ih => exact (matches_pop t).bind fun _ => ih

theorem matches_localType (slot : UInt16) : Matches (localType slot) (localType slot) := by
  refine Matches.get (fun s => ?_) ?_
  · split
    · exact .pure _
    · exact matches_fail _
  · exact fun _ _ _ => rfl

theorem matches_labelState (label : Nat) : Matches (labelState label) (labelState label) := by
  refine Matches.get (fun s => ?_) ?_
  · split
    · exact .pure _
    · exact matches_refuse _
  · exact fun _ _ _ => rfl

theorem matches_merge (label : Nat) (state : LabelState) :
    Matches (merge label state) (merge label state) := by
  refine Matches.get (fun s => ?_) ?_
  · dsimp only
    split
    · exact matches_updateLabel label _
    · split
      · exact .pure _
      · exact matches_fail _
  · exact fun _ _ _ => rfl

theorem matches_branch (label : Nat) (i : Instruction Nat) :
    Matches (branch label i) (branch label i) :=
  (matches_labelState label).bind fun _ => (matches_merge label _).bind fun _ =>
    (matches_updateLabel label _).bind fun _ => matches_write rfl rfl

/-- Writes an instruction and pushes a value. -/
theorem matches_produce (i : Instruction Nat) (t : ValueType) :
    Matches (do write i; push t) (do write i; push t) :=
  (matches_write rfl rfl).bind fun _ => matches_push t

/-- Takes a value, writes an instruction and pushes another one. -/
theorem matches_replace (i : Instruction Nat) (t u : ValueType) :
    Matches (do pop t; write i; push u) (do pop t; write i; push u) :=
  (matches_pop t).bind fun _ => matches_produce i u

theorem matches_guard (op : Opcode) : Matches (guard op) (guard op) := by
  refine Matches.get (fun s => ?_) ?_
  · split
    · refine Matches.get (fun s => ?_) ?_
      · split
        · exact .pure _
        · exact matches_fail _
      · exact fun _ _ _ => rfl
    · exact matches_refuse_bind _ _
  · exact fun _ _ _ => rfl

/-- **A request that names no member keeps assemblies abreast.** -/
theorem matches_apply {e : Emission} (hmember : e.member? = none) :
    Matches (apply e) (apply e) := by
  cases e with
  | pushNull | pushUndefined | pushBoolean | pushInt | pushLong | pushNumber =>
    exact matches_produce _ _
  | load type slot =>
    refine (matches_localType slot).bind fun declared => ?_
    split
    · exact matches_produce _ _
    · exact matches_fail_bind _ _
  | store type slot =>
    refine (matches_localType slot).bind fun declared => ?_
    split
    · exact (matches_pop _).bind fun _ => matches_write rfl rfl
    · exact matches_fail_bind _ _
  | getStatic owner name type | putStatic owner name type | invoke owner name signature =>
    cases hmember
  | arrayLoad =>
    refine (matches_onStack _).bind fun array => ?_
    split
    · exact matches_fail _
    · exact (matches_pop _).bind fun _ => matches_replace _ _ _
  | arrayStore =>
    refine (matches_onStack _).bind fun array => ?_
    split
    · exact matches_fail _
    · refine (matches_pop _).bind fun _ => (matches_pop _).bind fun _ => ?_
      exact (matches_pop _).bind fun _ => matches_write rfl rfl
  | arrayLength =>
    refine (matches_onStack _).bind fun array => ?_
    split
    · exact ((matches_onStack _).map _).bind fun _ => matches_produce _ _
    · exact matches_fail_bind _ _
  | newArray type | checkCast type | neg type =>
    simp only [apply]
    split
    · exact matches_replace _ _ _
    · exact matches_fail_bind _ _
  | dup =>
    refine (matches_onStack _).bind fun top => ?_
    split
    · exact matches_produce _ _
    · exact matches_fail_bind _ _
  | dup2 =>
    refine (matches_onStack _).bind fun top => ?_
    split
    · exact matches_produce _ _
    · refine (matches_onStack _).bind fun below => ?_
      split
      · exact (matches_write rfl rfl).bind fun _ => (matches_push _).bind fun _ => matches_push _
      · exact matches_fail_bind _ _
  | pop => exact ((matches_onStack _).map _).bind fun _ => matches_write rfl rfl
  | pop2 =>
    refine (matches_onStack _).bind fun top => ?_
    split
    · exact ((matches_onStack _).map _).bind fun _ => matches_write rfl rfl
    · refine ((matches_onStack _).map _).bind fun _ => ?_
      exact ((matches_onStack _).map _).bind fun _ => matches_write rfl rfl
  | swap =>
    refine (matches_onStack _).bind fun top => (matches_onStack _).bind fun below => ?_
    exact (matches_write rfl rfl).bind fun _ => (matches_push _).bind fun _ => matches_push _
  | arithmetic op type =>
    simp only [apply]
    split
    · exact (matches_pop _).bind fun _ => matches_replace _ _ _
    · exact matches_fail_bind _ _
  | convert source target =>
    simp only [apply]
    split
    · exact matches_fail_bind _ _
    · exact matches_replace _ _ _
  | newScope size => exact matches_replace _ _ _
  | jump label => exact (matches_branch _ _).bind fun _ => matches_terminate
  | ifTrue label | ifFalse label => exact (matches_pop _).bind fun _ => matches_branch _ _
  | returnValue =>
    refine Matches.get (fun s => ?_) ?_
    · dsimp only
      split
      · exact matches_fail_bind _ _
      · exact (matches_pop _).bind fun _ => (matches_write rfl rfl).bind fun _ => matches_terminate
    · exact fun _ _ _ => rfl
  | returnVoid =>
    refine Matches.get (fun s => ?_) ?_
    · dsimp only
      split
      · exact (matches_write rfl rfl).bind fun _ => matches_terminate
      · exact matches_fail_bind _ _
    · exact fun _ _ _ => rfl

theorem matches_bind (label : Nat) : Matches (Emit.bind label) (Emit.bind label) := by
  -- the offset of a label is the size of the code before it, whatever that code is
  have hplace : Matches
      (get >>= fun s : Assembly =>
        updateLabel label fun l => { l with offset := some s.assembler.size })
      (get >>= fun s : Assembly =>
        updateLabel label fun l => { l with offset := some s.assembler.size }) := by
    refine Matches.get (fun s => matches_updateLabel label _) fun s r symbols => ?_
    rw [Assembler.size_recode]
  refine (matches_labelState label).bind fun state => ?_
  split
  · exact matches_refuse_bind _ _
  · refine Matches.get (fun s => ?_) ?_
    · split
      · exact (matches_merge label state).bind fun _ => hplace
      · refine (matches_onStack _).bind fun _ => (matches_updateLabel label _).bind fun _ => ?_
        exact Matches.bind (matches_update fun _ r => ⟨r, rfl⟩) fun _ => hplace
    · exact fun _ _ _ => rfl

theorem matches_defineLocal (t : ValueType) : Matches (defineLocal t) (defineLocal t) := by
  rintro s s' ⟨r, hs⟩ x u hx
  unfold defineLocal Assembler.defineLocal at hx ⊢
  rw [hs]
  by_cases hvoid : (t == .void) = true
  · simp [hvoid] at hx
  · by_cases hroom : 65535 < s.assembler.locals.slots + t.width
    · simp [hvoid, hroom] at hx
    · simp only [hvoid, hroom, Bool.false_eq_true, if_false] at hx
      cases hx
      have hroom' : ¬ 65535 < (s.assembler.recode r).locals.slots + t.width := hroom
      simp only [hvoid, hroom', Bool.false_eq_true, if_false]
      exact ⟨_, rfl, ⟨r, rfl⟩, rfl⟩

theorem matches_newLabel : Matches newLabel newLabel := by
  refine Matches.get (fun s => ?_) ?_
  · exact Matches.bind (matches_update fun _ r => ⟨r, rfl⟩) fun _ => .pure _
  · exact fun _ _ _ => rfl

/-! ### Members -/

/-- Steps that intern one text keep assemblies abreast when there is room for the text. -/
def Interns (text : Text) (m : Emit α) : Prop :=
  ∀ s s' : Assembly, s.Abreast s' → ∀ x t, m s = .ok x t →
    ∀ symbol symbols, s'.symbols.intern text = .ok (symbol, symbols) →
      ∃ t', m s' = .ok x t' ∧ t.Abreast t' ∧ t'.symbols = symbols

theorem interns_intern {text : Text} {k : UInt16 → Emit α} (hk : ∀ i i', Matches (k i) (k i')) :
    Interns text (intern text >>= k) := by
  intro s s' hs x u h symbol symbols hroom
  obtain ⟨i, t, hintern, hx⟩ := exists_of_bind_ok h
  have ht : t.Abreast { s' with symbols } := by
    unfold intern at hintern
    split at hintern
    · cases hintern
      exact hs
    · cases hintern
  obtain ⟨u', hu', hu, hsymbols⟩ := hk i symbol t { s' with symbols } ht x u hx
  refine ⟨u', ?_, hu, hsymbols⟩
  have hrun : intern text s' = .ok symbol { s' with symbols } := by simp only [intern, hroom]
  simpa only [Bind.bind, EStateM.bind, hrun] using hu'

theorem Interns.after {text : Text} (hm : Matches m m) (hf : ∀ x, Interns text (f x)) :
    Interns text (m >>= f) := by
  intro s s' hs y u h symbol symbols hroom
  obtain ⟨x, t, hx, hy⟩ := exists_of_bind_ok h
  obtain ⟨t', hx', ht, hsymbols⟩ := hm s s' hs x t hx
  rw [← hsymbols] at hroom
  obtain ⟨u', hy', hu, hsymbols'⟩ := hf x t t' ht y u hy symbol symbols hroom
  refine ⟨u', ?_, hu, hsymbols'⟩
  simpa only [Bind.bind, EStateM.bind, hx'] using hy'

/-- The instructions that refer to a member do so by an index of fixed size. -/
theorem interns_emission {e : Emission} {text : Text} (hmember : e.member? = some text) :
    Interns text (emission e) := by
  refine Interns.after (matches_guard e.opcode) fun _ => ?_
  cases e with
  | getStatic owner name type =>
    cases hmember
    refine interns_intern fun _ _ => Matches.bind (matches_write ?_ ?_) fun _ => matches_push type
    all_goals rfl
  | putStatic owner name type =>
    cases hmember
    exact .after (matches_pop type) fun _ => interns_intern fun _ _ => matches_write rfl rfl
  | invoke owner name signature =>
    cases hmember
    refine .after (matches_popAll _) fun _ => interns_intern fun _ _ => ?_
    refine Matches.bind (matches_write ?_ ?_) fun _ => ?_
    · rfl
    · rfl
    · split
      · exact .pure _
      · exact matches_push _
  | _ => cases hmember

end Emit

/-- The text of the member to which a request refers. -/
def Request.member? (r : Request) : Option Text := r.emission?.bind Emission.member?

/-- The instruction that a request writes. -/
def Request.instruction? (types : List ValueType) (result : ValueType) (symbol : UInt16)
    (r : Request) : Option (Instruction Nat) :=
  r.emission?.map fun e => e.instruction types result symbol

namespace SymbolTable

variable {s t : SymbolTable} {member? : Option Text} {symbol : UInt16}

/-- The table after a member was looked up in it, if there is one to look up. -/
def Yields (s : SymbolTable) (member? : Option Text) (symbol : UInt16) (t : SymbolTable) : Prop :=
  (member? = none ∧ t = s) ∨ ∃ text, member? = some text ∧ s.intern text = .ok (symbol, t)

theorem exists_yields (hroom : ∀ text, member? = some text → Succeeds (s.intern text)) :
    ∃ symbol t, s.Yields member? symbol t := by
  cases member? with
  | none => exact ⟨0, s, .inl ⟨rfl, rfl⟩⟩
  | some text =>
    obtain ⟨⟨symbol, t⟩, hintern⟩ := hroom text rfl
    exact ⟨symbol, t, .inr ⟨text, rfl, hintern⟩⟩

theorem Yields.prefix_entries (h : s.Yields member? symbol t) (hs : s.Sound) :
    s.entries <+: t.entries := by
  rcases h with ⟨-, rfl⟩ | ⟨text, -, hintern⟩
  · exact List.prefix_rfl
  · exact (hs.intern hintern).2.2

theorem Yields.getElem?_symbol (h : s.Yields member? symbol t) (hs : s.Sound) {text : Text}
    (htext : member? = some text) : t.entries[symbol.toNat]? = some text := by
  rcases h with ⟨hnone, -⟩ | ⟨text', htext', hintern⟩
  · rw [hnone] at htext
    cases htext
  · obtain rfl : text' = text := Option.some.inj (htext'.symm.trans htext)
    exact (hs.intern hintern).2.1

end SymbolTable

namespace Emit

variable {r : Request} {s s' t : Assembly}

/-- **A granted request is granted in every assembly abreast**, if there is room there for the
member that it names. -/
theorem exists_request_abreast {symbol : UInt16} {symbols : SymbolTable} (hs : s.Abreast s')
    (h : request r s = .ok () t) (htable : s'.symbols.Yields r.member? symbol symbols) :
    ∃ t', request r s' = .ok () t' ∧ t.Abreast t' ∧ t'.symbols = symbols := by
  -- without a member nothing is interned on either side
  have hquiet : r.member? = none → Matches (request r) (request r) →
      ∃ t', request r s' = .ok () t' ∧ t.Abreast t' ∧ t'.symbols = symbols := by
    intro hnone hmatches
    obtain ⟨t', ht', hbeside, hsymbols⟩ := hmatches s s' hs () t h
    rcases htable with ⟨-, rfl⟩ | ⟨text, htext, -⟩
    · exact ⟨t', ht', hbeside, hsymbols⟩
    · rw [hnone] at htext
      cases htext
  cases r with
  | openCode => exact hquiet rfl matches_openCode
  | close => exact hquiet rfl matches_close
  | defineLocal type => exact hquiet rfl ((matches_defineLocal type).map _)
  | newLabel => exact hquiet rfl (matches_newLabel.map _)
  | bind label => exact hquiet rfl (matches_bind label)
  | emission e =>
    cases hmember : e.member? with
    | none =>
      exact hquiet hmember ((matches_guard e.opcode).bind fun _ => matches_apply hmember)
    | some text =>
      rcases htable with ⟨hnone, -⟩ | ⟨text', htext', hintern⟩
      · cases hmember.symm.trans hnone
      · obtain rfl : text = text' := Option.some.inj (hmember.symm.trans htext')
        exact interns_emission hmember s s' hs () t h symbol symbols hintern

/-- What a granted request does to code and symbols. -/
theorem ends_request_code (r : Request) (hclean : .void ∉ s.assembler.stack.types) :
    Ends (request r) s
      (fun _ t => ∃ symbol, s.symbols.Yields r.member? symbol t.symbols ∧
        t.assembler.newest =
          (r.instruction? s.assembler.stack.types s.assembler.returnType symbol).toList ++
            s.assembler.newest)
      fun _ _ => True := by
  cases r with
  | openCode => exact ⟨0, .inl ⟨rfl, rfl⟩, rfl⟩
  | close => exact ⟨0, .inl ⟨rfl, rfl⟩, rfl⟩
  | newLabel => exact ⟨0, .inl ⟨rfl, rfl⟩, rfl⟩
  | defineLocal type =>
    refine Ends.map (ends_defineLocal (fun _ => trivial) fun _ _ => ?_)
    exact ⟨0, .inl ⟨rfl, rfl⟩, rfl⟩
  | bind label =>
    refine ends_bind.mono ?_ fun _ _ _ => trivial
    rintro - t ⟨l, stack, hbound⟩
    rw [hbound.eq]
    exact ⟨0, .inl ⟨rfl, rfl⟩, rfl⟩
  | emission e =>
    refine (ends_emission hclean).mono ?_ fun _ _ _ => trivial
    rintro - t ⟨symbol, stack, he⟩
    refine ⟨symbol, he.interned, ?_⟩
    rw [he.assembler_eq]
    rfl

end Emit

/-! ### Code with other numbers -/

namespace Assembly

/-- The two assemblies differ in the numbers of symbols only. -/
structure Like (s s' : Assembly) : Prop where
  abreast : s.Abreast s'
  named_eq : s'.assembler.newest.map (Instruction.named s'.symbols.entries) =
    s.assembler.newest.map (Instruction.named s.symbols.entries)

theorem Like.refl (s : Assembly) : s.Like s :=
  ⟨⟨⟨s.assembler.code, s.assembler.fillable, s.assembler.newest, s.assembler.size_eq, rfl⟩, rfl⟩,
    rfl⟩

/-- Code keeps its names while the table grows. -/
theorem Linked.map_named {s : Assembly} (hs : s.Linked) {names : List Text}
    (hgrown : s.symbols.entries <+: names) :
    s.assembler.newest.map (Instruction.named names) =
      s.assembler.newest.map (Instruction.named s.symbols.entries) := by
  refine List.map_congr_left fun i hi => ?_
  refine Instruction.named_of_prefix hgrown fun n hn => ?_
  rw [SymbolTable.length_entries]
  exact hs.within i hi n hn

/-- Other routines may intern symbols of their own on both sides. -/
theorem Like.setSymbols {a a' : Assembler} {symbols symbols' more more' : SymbolTable}
    (h : Like ⟨a, symbols⟩ ⟨a', symbols'⟩) (hs : Linked ⟨a, symbols⟩) (hs' : Linked ⟨a', symbols'⟩)
    (hgrown : symbols.entries <+: more.entries) (hgrown' : symbols'.entries <+: more'.entries) :
    Like ⟨a, more⟩ ⟨a', more'⟩ :=
  ⟨h.abreast, (hs'.map_named hgrown').trans (h.named_eq.trans (hs.map_named hgrown).symm)⟩

theorem Like.types_eq {s s' : Assembly} (h : s.Like s') :
    s'.assembler.stack.types = s.assembler.stack.types ∧
      s'.assembler.returnType = s.assembler.returnType := by
  obtain ⟨r, hs⟩ := h.abreast
  rw [hs]
  exact ⟨rfl, rfl⟩

end Assembly

/-- **A granted request is granted with other numbers, too**, and the code stays the same but for
them. -/
theorem Emit.exists_request_like {r : Request} {s s' t : Assembly} (hs : s.Linked)
    (hs' : s'.Linked) (hlike : s.Like s') (h : Emit.request r s = .ok () t)
    (hroom : ∀ text, r.member? = some text → Succeeds (s'.symbols.intern text)) :
    ∃ t', Emit.request r s' = .ok () t' ∧ t.Like t' := by
  obtain ⟨symbol', symbols', hyields'⟩ := SymbolTable.exists_yields hroom
  obtain ⟨t', ht', habreast, -⟩ := Emit.exists_request_abreast hlike.abreast h hyields'
  refine ⟨t', ht', habreast, ?_⟩
  obtain ⟨htypes, hresult⟩ := hlike.types_eq
  have hclean' : .void ∉ s'.assembler.stack.types := htypes ▸ hs.wellFormed.noVoid
  -- both have written the same instruction, but for the index of its member
  obtain ⟨i, hi, hcode⟩ := (Emit.ends_request_code r hs.wellFormed.noVoid).ok h
  obtain ⟨j, hj, hcode'⟩ := (Emit.ends_request_code r hclean').ok ht'
  rw [htypes, hresult] at hcode'
  have hold := hs.map_named (hi.prefix_entries hs.symbols)
  have hold' := hs'.map_named (hj.prefix_entries hs'.symbols)
  rw [hcode, hcode', List.map_append, List.map_append, hold, hold', hlike.named_eq]
  congr 1
  cases r with
  | emission e =>
    refine congrArg (fun x => [x]) (Emission.named_instruction e _ _ fun text htext => ?_)
    rw [hj.getElem?_symbol hs'.symbols htext, hi.getElem?_symbol hs.symbols htext]
  | _ => rfl

/-! ### Finished code -/

/-- A placed instruction with the text of its symbol in place of the index. -/
def Placed.named (names : List Text) (p : Placed) : UInt32 × NamedInstruction UInt32 :=
  (p.offset, p.instruction.named names)

/-- The bytes of an instruction do not depend on the number of its symbol. -/
theorem Code.size_eq_of_named {α : Type} {names names' : List Text}
    {code code' : List (Instruction α)}
    (h : code'.map (Instruction.named names') = code.map (Instruction.named names)) :
    Code.size code' = Code.size code := by
  induction code generalizing code' with
  | nil =>
    obtain rfl := List.map_eq_nil_iff.mp h
    rfl
  | cons i code ih =>
    obtain ⟨i', rest, rfl, hi, hrest⟩ := List.map_eq_cons_iff.mp h
    have hop : i'.op = i.op := congrArg NamedInstruction.op hi
    have hsize : i'.size = i.size := by rw [Instruction.size, Instruction.size, hop]
    show i'.size + Code.size rest = i.size + Code.size code
    rw [hsize, ih hrest]

/-- Whether code can be finished does not depend on the instructions. -/
theorem Assembler.assembled_recode (a : Assembler) (r : a.Recoding) :
    (a.recode r).assembled = a.assembled.map fun _ => Code.encode (a.recode r).resolved := by
  have hreach : (a.recode r).reachable = a.reachable := rfl
  have hunbound : (a.recode r).unbound? = a.unbound? := rfl
  have hroutine : (a.recode r).routine = a.routine := rfl
  unfold assembled
  rw [hreach, hunbound, hroutine]
  by_cases hopen : a.reachable = true
  · simp [hopen, Except.map]
  · cases hlabel : a.unbound? with
    | none => simp [hopen, Except.map]
    | some label => simp [hopen, Except.map]

/-- What is the same of two assemblers that differ in the numbers of symbols only. The names are
those of the unit of each. -/
structure Assembler.Renumbers (names names' : List Text) (a a' : Assembler) : Prop where
  stack_eq : a'.stack = a.stack
  reachable_eq : a'.reachable = a.reachable
  locals_eq : a'.locals = a.locals
  labels_eq : a'.labels = a.labels
  fixups_eq : a'.fixups = a.fixups
  size_eq : a'.size = a.size
  named_eq : a'.instructions.map (Instruction.named names') =
    a.instructions.map (Instruction.named names)
  /-- Code that cannot be finished fails alike. -/
  finish_error : ∀ e, a.finish = .error e → a'.finish = .error e
  /-- Finished code is decoded to the same instructions. -/
  decode_finish : ∀ bytes, a.finish = .ok bytes → ∃ bytes' code code',
    a'.finish = .ok bytes' ∧ Code.decode bytes = .ok code ∧ Code.decode bytes' = .ok code' ∧
      code'.map (Placed.named names') = code.map (Placed.named names)

namespace Assembly.Like

variable {s s' : Assembly}

theorem instructions_named (h : s.Like s') :
    s'.assembler.instructions.map (Instruction.named s'.symbols.entries) =
      s.assembler.instructions.map (Instruction.named s.symbols.entries) := by
  simp only [Assembler.instructions, List.map_reverse, h.named_eq]

/-- The instructions stand at the same offsets, with the same targets. -/
theorem placed_named (h : s.Like s') :
    (Code.placed s'.assembler.resolved).map (Placed.named s'.symbols.entries) =
      (Code.placed s.assembler.resolved).map (Placed.named s.symbols.entries) := by
  have hnamed := h.instructions_named
  obtain ⟨r, hs⟩ := h.abreast
  have htarget : s'.assembler.offsetOf = s.assembler.offsetOf := by
    rw [hs]
    rfl
  refine List.ext_getElem? fun k => ?_
  have hoffset : Code.offset s'.assembler.instructions k =
      Code.offset s.assembler.instructions k := by
    have htake : (s'.assembler.instructions.take k).map (Instruction.named s'.symbols.entries) =
        (s.assembler.instructions.take k).map (Instruction.named s.symbols.entries) := by
      rw [List.map_take, List.map_take, hnamed]
    exact Code.size_eq_of_named htake
  have hget : s'.assembler.instructions[k]?.map (Instruction.named s'.symbols.entries) =
      s.assembler.instructions[k]?.map (Instruction.named s.symbols.entries) := by
    rw [← List.getElem?_map, hnamed, List.getElem?_map]
  rw [List.getElem?_map, List.getElem?_map, Assembler.getElem?_placed_resolved,
    Assembler.getElem?_placed_resolved, Option.map_map, Option.map_map, hoffset, htarget]
  -- what a placed instruction is called follows from what the instruction is called
  have hplace : ∀ (names : List Text),
      Placed.named names ∘ (fun i : Instruction Nat =>
        (i.map s.assembler.offsetOf).placedAt (Code.offset s.assembler.instructions k)) =
      (fun j : NamedInstruction Nat => ((Code.offset s.assembler.instructions k).toUInt32,
        j.map s.assembler.offsetOf)) ∘ Instruction.named names := by
    intro names
    funext i
    exact congrArg (Prod.mk _) (Instruction.named_map names _ i)
  rw [hplace, hplace, ← Option.map_map, ← Option.map_map, hget]

/-- **Assemblers that differ in the numbers of symbols only** agree in all that can be asked of
them, and in their finished code but for these numbers. -/
theorem renumbers (h : s.Like s') (hform : s.assembler.WellFormed)
    (hform' : s'.assembler.WellFormed) :
    Assembler.Renumbers s.symbols.entries s'.symbols.entries s.assembler s'.assembler := by
  have hplaced := h.placed_named
  have hnamed := h.instructions_named
  obtain ⟨r, hs⟩ := h.abreast
  have hsize : s'.assembler.size = s.assembler.size := by rw [hs, Assembler.size_recode]
  have hfinish : s'.assembler.finish =
      s.assembler.finish.map fun _ => Code.encode s'.assembler.resolved := by
    rw [hform.coded.finish_eq, hform'.coded.finish_eq, hs]
    exact s.assembler.assembled_recode r
  refine ⟨by rw [hs]; rfl, by rw [hs]; rfl, by rw [hs]; rfl, by rw [hs]; rfl, by rw [hs]; rfl,
    hsize, hnamed, ?_, ?_⟩
  · intro e he
    rw [hfinish, he]
    rfl
  · intro bytes hbytes
    rw [hbytes] at hfinish
    refine ⟨_, _, _, hfinish, ?_, Code.decode_encode _, hplaced⟩
    obtain ⟨-, rfl, -⟩ := hform.finish_eq_ok hbytes
    exact Code.decode_encode _

end Assembly.Like

end Bytecode
