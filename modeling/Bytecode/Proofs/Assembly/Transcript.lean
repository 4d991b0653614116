import Mathlib
import Bytecode.Proofs.Assembly.Linking
import Bytecode.Proofs.Assembly.Soundness

/-!
# Transcripts of assembly

Calls to an assembler may fail and be given up, code may be finished and then go on, and other
routines intern references of their own in between. The transcript of a run lists the calls that
were granted. Finished code is its transcript: one instruction for each emission in it, in order,
and a jump leads to what was emitted right after its label was bound.

The invariant compares the instructions with the emissions of the transcript, and the offset of a
label with the number of emissions before the call that bound it. A refused call leaves both sides
alone, which is why it does not show in the code.

## Main definitions

* `Call`: what can happen to an assembler and to the symbol table of its unit
* `Assembly.granted`: the calls that were granted, each with the state in which it was made
* `Spells`: the instruction that an emission stands for
* `BoundAfter`: the label was bound once, after so many emissions

## Main results

* `Emit.ends_call_transcribed`: what one call adds to the transcript
* `Emit.decode_finish_after`: decoding finished code gives back the transcript
-/

namespace Bytecode

/-- What can happen to an assembler and to the symbol table of its unit. -/
inductive Call
  | request (r : Request)
  | finish
  /-- Another routine of the unit refers to a member. -/
  | reference (text : Text)
  deriving DecidableEq, Repr

/-- The effect of a call. -/
def Emit.call : Call → Emit Unit
  | .request r => request r
  | .finish => discard finish
  | .reference text => discard (intern text)

/-- A call that was granted, with the state in which it was made. -/
structure Granted where
  call : Call
  before : Assembly

namespace Assembly

/-- The start of a routine, before anything is interned. -/
def start (routine : Text) (returnType : ValueType) (owner : Text) : Assembly :=
  ⟨.new routine returnType, .empty owner⟩

/-- The state after calls. A call that fails is given up, with what it has left behind. -/
def after (s : Assembly) (calls : List Call) : Assembly :=
  calls.foldl (fun s c => leaves (Emit.call c) s) s

/-- The transcript of a run: the calls that were granted, in order. -/
def granted (s : Assembly) : List Call → List Granted
  | [] => []
  | c :: calls =>
    match Emit.call c s with
    | .ok _ t => ⟨c, s⟩ :: t.granted calls
    | .error _ t => t.granted calls

end Assembly

/-! ## Transcripts -/

namespace Granted

/-- The call emits an instruction, in the given state. -/
def emission? (g : Granted) : Option (Emission × Assembly) :=
  match g.call with
  | .request r => r.emission?.map fun e => (e, g.before)
  | _ => none

/-- The emissions of a transcript, each with the state in which it was made. -/
def emissions (made : List Granted) : List (Emission × Assembly) := made.filterMap emission?

@[simp] theorem emissions_append (made more : List Granted) :
    emissions (made ++ more) = emissions made ++ emissions more := List.filterMap_append

/-- The call binds a label. -/
def Binds (g : Granted) (label : Nat) : Prop := g.call = .request (.bind label)

end Granted

open Granted (emissions)

/-- The label of a jump. -/
def Emission.label? : Emission → Option Nat
  | jump label => some label
  | ifTrue label => some label
  | ifFalse label => some label
  | _ => none

theorem Emission.target?_instruction (e : Emission) (types : List ValueType) (result : ValueType)
    (symbol : UInt16) : (e.instruction types result symbol).target? = e.label? := by
  cases e with
  | pushBoolean value => cases value <;> rfl
  | arithmetic op type => cases op <;> rfl
  | _ => rfl

/-- The instruction that an emission stands for, in a routine with the given result. Array
operations have the type that was on the stack, and a member has the index which the symbol table
of that time gave to it, and under which `symbols` still has it. -/
def Spells (result : ValueType) (symbols : SymbolTable) (emitted : Emission × Assembly)
    (i : Instruction Nat) : Prop :=
  ∃ symbol, i = emitted.1.instruction emitted.2.assembler.stack.types result symbol ∧
    ∀ text, emitted.1.member? = some text →
      (∃ table, emitted.2.symbols.intern text = .ok (symbol, table)) ∧
        symbols.entries[symbol.toNat]? = some text

theorem Spells.mono {result : ValueType} {symbols symbols' : SymbolTable}
    {emitted : Emission × Assembly} {i : Instruction Nat} (h : Spells result symbols emitted i)
    (hgrown : symbols.entries <+: symbols'.entries) : Spells result symbols' emitted i := by
  obtain ⟨symbol, hi, hmember⟩ := h
  refine ⟨symbol, hi, fun text htext => ?_⟩
  obtain ⟨hintern, hentry⟩ := hmember text htext
  exact ⟨hintern, getElem?_of_prefix hgrown hentry⟩

/-- The label was bound by one call, which came after `k` emissions. -/
def BoundAfter (made : List Granted) (label k : Nat) : Prop :=
  ∃ earlier g later, made = earlier ++ g :: later ∧ g.Binds label ∧
    (∀ other ∈ earlier ++ later, ¬ other.Binds label) ∧ (emissions earlier).length = k

theorem BoundAfter.append {made more : List Granted} {label k : Nat} (h : BoundAfter made label k)
    (hmore : ∀ g ∈ more, ¬ g.Binds label) : BoundAfter (made ++ more) label k := by
  obtain ⟨earlier, g, later, rfl, hg, hothers, hk⟩ := h
  refine ⟨earlier, g, later ++ more, by simp, hg, fun other hother => ?_, hk⟩
  rw [← List.append_assoc] at hother
  rcases List.mem_append.mp hother with hold | hnew
  · exact hothers other hold
  · exact hmore other hnew

/-- A label that was not bound before is bound by the last call. -/
theorem BoundAfter.concat {made : List Granted} {g : Granted} {label : Nat} (hg : g.Binds label)
    (hmade : ∀ other ∈ made, ¬ other.Binds label) :
    BoundAfter (made ++ [g]) label (emissions made).length :=
  ⟨made, g, [], rfl, hg, by simpa using hmade, rfl⟩

theorem BoundAfter.le_length {made : List Granted} {label k : Nat} (h : BoundAfter made label k) :
    k ≤ (emissions made).length := by
  obtain ⟨earlier, g, later, rfl, -, -, rfl⟩ := h
  rw [Granted.emissions_append, List.length_append]
  exact Nat.le_add_right _ _

/-! ## What the transcript says of the code -/

/-- The code and the labels of an assembly are what the transcript says. -/
structure Assembly.Transcribes (s : Assembly) (result : ValueType) (made : List Granted) :
    Prop where
  linked : s.Linked
  result_eq : s.assembler.returnType = result
  spelled : List.Forall₂ (Spells result s.symbols) (emissions made) s.assembler.instructions
  bound : ∀ label o, s.assembler.offset? label = some o →
    ∃ k, BoundAfter made label k ∧ o = Code.offset s.assembler.instructions k
  unbound : ∀ label, s.assembler.offset? label = none → ∀ g ∈ made, ¬ g.Binds label

namespace Assembly.Transcribes

variable {s t : Assembly} {result : ValueType} {made more : List Granted}

theorem start (routine : Text) (returnType : ValueType) (owner : Text) :
    (Assembly.start routine returnType owner).Transcribes returnType [] where
  linked := ⟨.start routine returnType false, .empty owner, fun i hi => by cases hi⟩
  result_eq := rfl
  spelled := .nil
  bound label o ho := by simp [Assembly.start, Assembler.new, Assembler.offset?] at ho
  unbound label _ g hg := by cases hg

/-- Calls that neither emit nor bind leave the code as it was. -/
theorem keep (h : s.Transcribes result made) (hevolves : s.Evolves t)
    (hcode : t.assembler.instructions = s.assembler.instructions)
    (hbound : ∀ label, t.assembler.offset? label = s.assembler.offset? label)
    (hmore : ∀ g ∈ more, g.emission? = none ∧ ∀ label, ¬ g.Binds label) :
    t.Transcribes result (made ++ more) where
  linked := hevolves.linked
  result_eq := hevolves.returnType_eq.trans h.result_eq
  spelled := by
    have hnone : emissions more = [] := List.filterMap_eq_nil_iff.mpr fun g hg => (hmore g hg).1
    rw [Granted.emissions_append, hnone, List.append_nil, hcode]
    exact h.spelled.imp fun _ _ hi => hi.mono hevolves.symbols_prefix
  bound label o ho := by
    rw [hbound] at ho
    obtain ⟨k, hk, hoffset⟩ := h.bound label o ho
    exact ⟨k, hk.append fun g hg => (hmore g hg).2 label, by rw [hoffset, hcode]⟩
  unbound label ho g hg := by
    rw [hbound] at ho
    rcases List.mem_append.mp hg with hold | hnew
    · exact h.unbound label ho g hold
    · exact (hmore g hnew).2 label

/-- A refused call does not show. -/
theorem refused (h : s.Transcribes result made) (hevolves : s.Evolves t)
    (hcode : t.assembler.instructions = s.assembler.instructions)
    (hbound : ∀ label, t.assembler.offset? label = s.assembler.offset? label) :
    t.Transcribes result made := by
  have hkept : t.Transcribes result (made ++ []) := h.keep hevolves hcode hbound (by simp)
  rwa [List.append_nil] at hkept

/-- A granted call that neither emits nor binds. -/
theorem aside (h : s.Transcribes result made) (g : Granted) (hevolves : s.Evolves t)
    (hcode : t.assembler.instructions = s.assembler.instructions)
    (hbound : ∀ label, t.assembler.offset? label = s.assembler.offset? label)
    (hemission : g.emission? = none) (hbinds : ∀ label, ¬ g.Binds label) :
    t.Transcribes result (made ++ [g]) := by
  refine h.keep hevolves hcode hbound fun g' hg' => ?_
  obtain rfl := List.mem_singleton.mp hg'
  exact ⟨hemission, hbinds⟩

theorem length_eq (h : s.Transcribes result made) :
    (emissions made).length = s.assembler.instructions.length := h.spelled.length_eq

/-- An emission adds its instruction. The labels keep the numbers of emissions before them. -/
theorem emitted (h : s.Transcribes result made) {e : Emission} {symbol : UInt16}
    {stack : OperandStack} (he : Emitted e s t symbol stack) :
    t.Transcribes result (made ++ [⟨.request (.emission e), s⟩]) := by
  have hevolves := he.evolves h.linked
  have hcode : t.assembler.instructions = s.assembler.instructions ++
      [e.instruction s.assembler.stack.types s.assembler.returnType symbol] := by
    rw [he.assembler_eq, Assembler.instructions_emitted]
  have hbound : ∀ label, t.assembler.offset? label = s.assembler.offset? label := by
    intro label
    rw [he.assembler_eq, Assembler.offset?_emitted]
  have hnew : Spells result t.symbols (e, s)
      (e.instruction s.assembler.stack.types s.assembler.returnType symbol) := by
    refine ⟨symbol, by rw [h.result_eq], fun text htext => ?_⟩
    rcases he.interned with ⟨hnone, -⟩ | ⟨text', htext', hintern⟩
    · rw [hnone] at htext
      cases htext
    · obtain rfl : text' = text := Option.some.inj (htext'.symm.trans htext)
      exact ⟨⟨_, hintern⟩, (h.linked.symbols.intern hintern).2.1⟩
  have hother : ∀ label, ∀ g ∈ [(⟨.request (.emission e), s⟩ : Granted)], ¬ g.Binds label := by
    simp [Granted.Binds]
  refine ⟨hevolves.linked, hevolves.returnType_eq.trans h.result_eq, ?_, ?_, ?_⟩
  · rw [hcode, Granted.emissions_append]
    exact List.rel_append (h.spelled.imp fun _ _ hi => hi.mono hevolves.symbols_prefix)
      (.cons hnew .nil)
  · intro label o ho
    rw [hbound] at ho
    obtain ⟨k, hk, rfl⟩ := h.bound label o ho
    refine ⟨k, hk.append (hother label), ?_⟩
    rw [hcode, Code.offset_append (hk.le_length.trans_eq h.length_eq)]
  · intro label ho g hg
    rw [hbound] at ho
    rcases List.mem_append.mp hg with hold | hlast
    · exact h.unbound label ho g hold
    · exact hother label g hlast

/-- A label is bound to the end of the code, before which all emissions so far stand. -/
theorem bind (h : s.Transcribes result made) {label : Nat} {l : LabelState} {stack : OperandStack}
    (hb : Bound label s t l stack) (hevolves : s.Evolves t) :
    t.Transcribes result (made ++ [⟨.request (.bind label), s⟩]) := by
  have hcode : t.assembler.instructions = s.assembler.instructions := by
    rw [hb.eq]
    rfl
  have hhere : t.assembler.offset? label = some s.assembler.size := by
    rw [hb.eq, Assembler.offset?, Array.getElem?_modify, if_pos rfl, hb.label_eq]
    rfl
  have hothers : ∀ other, other ≠ label →
      t.assembler.offset? other = s.assembler.offset? other := by
    intro other hne
    rw [hb.eq, Assembler.offset?, Array.getElem?_modify, if_neg hne.symm, Assembler.offset?]
  have hfree : s.assembler.offset? label = none := by
    rw [Assembler.offset?, hb.label_eq]
    exact hb.unbound
  have hlast : ∀ other, other ≠ label →
      ∀ g ∈ [(⟨.request (.bind label), s⟩ : Granted)], ¬ g.Binds other := by
    intro other hne g hg
    obtain rfl := List.mem_singleton.mp hg
    simpa [Granted.Binds] using hne.symm
  refine ⟨hevolves.linked, hevolves.returnType_eq.trans h.result_eq, ?_, ?_, ?_⟩
  · -- binding is no emission
    have hnone : emissions [(⟨.request (.bind label), s⟩ : Granted)] = [] := rfl
    rw [hcode, Granted.emissions_append, hnone, List.append_nil]
    exact h.spelled.imp fun _ _ hi => hi.mono hevolves.symbols_prefix
  · intro other o ho
    rw [hcode]
    by_cases hsame : other = label
    · subst hsame
      rw [hhere] at ho
      cases ho
      refine ⟨_, .concat rfl (h.unbound other hfree), ?_⟩
      rw [h.length_eq, Code.offset_length, Assembler.size_instructions]
    · rw [hothers other hsame] at ho
      obtain ⟨k, hk, hoffset⟩ := h.bound other o ho
      exact ⟨k, hk.append (hlast other hsame), hoffset⟩
  · intro other ho g hg
    have hne : other ≠ label := by
      rintro rfl
      rw [hhere] at ho
      cases ho
    rw [hothers other hne] at ho
    rcases List.mem_append.mp hg with hold | hnew
    · exact h.unbound other ho g hold
    · exact hlast other hne g hnew

end Assembly.Transcribes

/-! ## Runs -/

/-- A call that is refused halfway: a static field of type void has written its instruction by the
time it is refused. -/
def Call.IsVoidField (c : Call) : Prop :=
  ∃ owner name, c = .request (.emission (.getStatic owner name .void))

namespace Emit

theorem safe_intern (text : Text) : Safe (Emit.intern text) := by
  intro s hs
  refine ends_intern (fun _ => .refl hs) fun symbol symbols hintern => ?_
  obtain ⟨hsound, -, hgrown⟩ := hs.symbols.intern hintern
  refine ⟨⟨hs.wellFormed, hsound, fun i hi n hn => ?_⟩, rfl, le_rfl, hgrown,
    List.prefix_rfl⟩
  exact (hs.within i hi n hn).trans_le (SymbolTable.size_le_of_prefix hgrown)

/-- Finished code is safe to go on with. -/
theorem safe_finish : Safe Emit.finish := by
  intro s hs
  refine ends_finish (fun _ => .refl hs) fun done hdone => ?_
  have hform := hs.wellFormed.complete hdone
  obtain ⟨code, hfill, hsize, -, rfl⟩ := Assembler.complete_eq_ok hdone
  exact ⟨⟨hform, hs.symbols, hs.within⟩, rfl, le_rfl, List.prefix_rfl, List.prefix_rfl⟩

/-- A request adds itself to the transcript, or nothing. -/
theorem ends_request_transcribed (r : Request) {s : Assembly} {result : ValueType}
    {made : List Granted} (h : s.Transcribes result made)
    (hvoid : ¬ (Call.request r).IsVoidField) :
    Ends (Emit.request r) s (fun _ t => t.Transcribes result (made ++ [⟨.request r, s⟩]))
      (fun _ t => t.Transcribes result made) := by
  have hsafe := safe_request r s h.linked
  cases r with
  | openCode =>
    refine Ends.modify (h.aside _ hsafe rfl (fun _ => rfl) rfl ?_)
    rintro label ⟨⟩
  | close =>
    refine Ends.modify (h.aside _ hsafe rfl (fun _ => rfl) rfl ?_)
    rintro label ⟨⟩
  | defineLocal type =>
    refine Ends.map (ends_defineLocal (fun _ => h) fun hne hslots => ?_)
    refine h.aside ⟨.request (.defineLocal type), s⟩ ?_ rfl (fun _ => rfl) rfl ?_
    · exact ⟨⟨h.linked.wellFormed.defineLocal type, h.linked.symbols, h.linked.within⟩, rfl,
        Nat.le_add_right _ _, List.prefix_rfl, List.prefix_rfl⟩
    · rintro label ⟨⟩
  | newLabel =>
    refine Ends.map (ends_newLabel (h.aside _ hsafe rfl s.assembler.offset?_push rfl ?_))
    rintro label ⟨⟩
  | bind label =>
    refine (ends_bind.and hsafe).mono ?_ ?_
    · rintro - t ⟨⟨l, stack, hbound⟩, hevolves⟩
      exact h.bind hbound hevolves
    · rintro - t ⟨rfl, -⟩
      exact h
  | emission e =>
    refine ((ends_emission h.linked.wellFormed.noVoid).and hsafe).mono ?_ ?_
    · rintro - t ⟨⟨symbol, stack, he⟩, -⟩
      exact h.emitted he
    · rintro - t ⟨he, hevolves⟩
      cases he with
      | taken => exact h.refused hevolves rfl fun _ => rfl
      | written hfield => exact absurd ⟨_, _, by rw [hfield]⟩ hvoid

/-- **One call**: it adds itself to the transcript when it is granted, and nothing when it is
refused. -/
theorem ends_call_transcribed (c : Call) {s : Assembly} {result : ValueType}
    {made : List Granted} (h : s.Transcribes result made) (hvoid : ¬ c.IsVoidField) :
    Ends (Emit.call c) s (fun _ t => t.Transcribes result (made ++ [⟨c, s⟩]))
      (fun _ t => t.Transcribes result made) := by
  cases c with
  | request r => exact ends_request_transcribed r h hvoid
  | finish =>
    have hsafe := safe_finish s h.linked
    refine Ends.map (ends_finish (fun _ => h) fun done hdone => ?_)
    have hok : Emit.finish s = .ok done.code.bytes { s with assembler := done } := by
      unfold Emit.finish
      rw [hdone]
    have hevolves := hsafe.ok hok
    -- completing the code fills in bytes, and leaves instructions and labels alone
    obtain ⟨code, hfill, hsize, -, rfl⟩ := Assembler.complete_eq_ok hdone
    exact h.aside _ hevolves rfl (fun _ => rfl) rfl (by rintro label ⟨⟩)
  | reference text =>
    have hsafe := safe_intern text s h.linked
    refine Ends.map (ends_intern (fun _ => h) fun symbol symbols hintern => ?_)
    have hok : Emit.intern text s = .ok symbol { s with symbols } := by
      unfold Emit.intern
      rw [hintern]
    exact h.aside _ (hsafe.ok hok) rfl (fun _ => rfl) rfl (by rintro label ⟨⟩)

end Emit

/-- The transcript of a run says what the code is. -/
theorem Assembly.Transcribes.after {s : Assembly} {result : ValueType} {made : List Granted}
    (h : s.Transcribes result made) {calls : List Call} (hvoid : ∀ c ∈ calls, ¬ c.IsVoidField) :
    (s.after calls).Transcribes result (made ++ s.granted calls) := by
  induction calls generalizing s made with
  | nil => simpa [Assembly.after, Assembly.granted] using h
  | cons c calls ih =>
    have hstep := Emit.ends_call_transcribed c h (hvoid c List.mem_cons_self)
    have hrest : ∀ c' ∈ calls, ¬ c'.IsVoidField := fun c' hc' =>
      hvoid c' (List.mem_cons_of_mem c hc')
    unfold Assembly.after
    rw [List.foldl_cons]
    cases hc : Emit.call c s with
    | ok x t =>
      have ht := ih (hstep.ok hc) hrest
      simpa only [Assembly.granted, hc, leaves, List.append_assoc, List.singleton_append,
        Assembly.after] using ht
    | error e t =>
      have ht := ih (hstep.error hc) hrest
      simpa only [Assembly.granted, hc, leaves, Assembly.after] using ht

/-- Resolved code spells the emissions of its transcript. -/
theorem Assembly.Transcribes.spelled_placed {s : Assembly} {result : ValueType}
    {made : List Granted} (h : s.Transcribes result made) :
    List.Forall₂ (fun emitted p => ∃ i, Spells result s.symbols emitted i ∧
      p.instruction = i.map s.assembler.offsetOf) (emissions made)
      (Code.placed s.assembler.resolved) := by
  have hplaced : List.Forall₂ (fun emitted j => ∃ i, Spells result s.symbols emitted i ∧
      j = i.map s.assembler.offsetOf) (emissions made)
      ((Code.placed s.assembler.resolved).map Placed.instruction) := by
    rw [Code.placed, Code.map_instruction_placedFrom, Assembler.resolved,
      List.forall₂_map_right_iff]
    exact h.spelled.imp fun _ i hi => ⟨i, hi, rfl⟩
  exact List.forall₂_map_right_iff.mp hplaced

/-- The target of a jump in finished code is the offset of the first instruction that was emitted
after its label was bound. -/
theorem Assembly.Transcribes.exists_target {s : Assembly} {result : ValueType}
    {made : List Granted} {bytes : Bytes} (h : s.Transcribes result made)
    (hfinish : s.assembler.finish = .ok bytes) {emitted : Emission × Assembly}
    (hemitted : emitted ∈ emissions made) {label : Nat} (hlabel : emitted.1.label? = some label) :
    ∃ k q, BoundAfter made label k ∧ (Code.placed s.assembler.resolved)[k]? = some q ∧
      s.assembler.offsetOf label = q.offset ∧
      (bytes.length ≤ 4294967296 → (s.assembler.offsetOf label).toNat =
        Code.position (Code.placed s.assembler.resolved) k) := by
  -- the jump is an instruction of the code, so its label is bound before an instruction
  obtain ⟨k, hk, hget⟩ := List.getElem_of_mem hemitted
  have hk' : k < s.assembler.instructions.length := h.length_eq ▸ hk
  have hspells := h.spelled.get hk hk'
  obtain ⟨symbol, hi, -⟩ := hspells
  rw [List.get_eq_getElem, List.get_eq_getElem, hget] at hi
  have hmem : s.assembler.instructions[k] ∈ s.assembler.newest :=
    Assembler.mem_instructions.mp (List.getElem_mem hk')
  have htarget : s.assembler.instructions[k].target? = some label := by
    rw [hi, Emission.target?_instruction, hlabel]
  obtain ⟨l, n, hn, hl, ho, hoffset⟩ := h.linked.wellFormed.exists_target hfinish hmem htarget
  -- the transcript knows after how many emissions that was
  have hbound : s.assembler.offset? label = some (Code.offset s.assembler.instructions n) := by
    rw [Assembler.offset?, hl]
    exact ho
  obtain ⟨m, hm, heq⟩ := h.bound label _ hbound
  have hlt : m < s.assembler.instructions.length := by
    by_contra hge
    have hend : Code.offset s.assembler.instructions m = Code.size s.assembler.instructions := by
      rw [Code.offset, List.take_of_length_le (Nat.le_of_not_lt hge)]
    exact (Code.offset_lt_size hn).ne (heq.trans hend)
  rw [heq] at hoffset
  obtain ⟨-, rfl, -⟩ := h.linked.wellFormed.finish_eq_ok hfinish
  refine ⟨m, _, hm, Assembler.getElem?_placed_of_lt hlt, hoffset, fun hbytes => ?_⟩
  rw [hoffset, Assembler.toNat_offset hlt hbytes, Assembler.position_placed_resolved]

/-- **Finished code is its transcript.** Whatever was asked of an assembler, granted or not, and
however often its code was finished before: decoding finished code gives one instruction for each
emission that was granted, in order, as the emission spells it with an offset for each label. The
offset of the label of a jump is that of the first instruction emitted after the call that bound the
label, wherever the jump stands. The assembler keeps the finished bytes, with no offset missing. -/
theorem Emit.decode_finish_after {routine owner : Text} {returnType : ValueType}
    {calls : List Call} {bytes : Bytes} {s : Assembly}
    (hvoid : ∀ c ∈ calls, ¬ c.IsVoidField)
    (h : Emit.finish ((Assembly.start routine returnType owner).after calls) = .ok bytes s) :
    s.assembler.code.bytes = bytes ∧ s.assembler.fixups = [] ∧
    ∃ code target, Code.decode bytes = .ok code ∧
      List.Forall₂ (fun emitted p => ∃ i, Spells returnType s.symbols emitted i ∧
          p.instruction = i.map target)
        (emissions ((Assembly.start routine returnType owner).granted calls)) code ∧
      ∀ emitted ∈ emissions ((Assembly.start routine returnType owner).granted calls),
        ∀ label, emitted.1.label? = some label → ∃ k q,
          BoundAfter ((Assembly.start routine returnType owner).granted calls) label k ∧
          code[k]? = some q ∧ target label = q.offset ∧
          (bytes.length ≤ 4294967296 → (target label).toNat = Code.position code k) := by
  have hmade := (Assembly.Transcribes.start routine returnType owner).after hvoid
  rw [List.nil_append] at hmade
  obtain ⟨hfinish, code, hfill, hsize, hcode, rfl⟩ := Emit.finish_eq_ok h
  obtain ⟨-, hbytes, -⟩ := hmade.linked.wellFormed.finish_eq_ok hfinish
  refine ⟨hcode, rfl, _, _, hbytes ▸ Code.decode_encode _, hmade.spelled_placed, ?_⟩
  intro emitted hemitted label hlabel
  exact hmade.exists_target hfinish hemitted hlabel

/-- A run with refused calls, a reference of another routine, a jump forward and one back, and code
that goes on after it was finished. -/
def interruptedRun : List Call :=
  [.request (.emission .returnVoid), .request .openCode, .reference [65], .request .newLabel,
    .request .newLabel, .request (.bind 0), .request (.emission (.getStatic [66] [67] .boolean)),
    .request (.emission (.ifTrue 1)), .request (.bind 0), .request (.emission .pop),
    .request (.emission (.jump 0)), .finish, .request (.bind 1), .request (.emission .returnVoid),
    .finish, .request .newLabel, .request (.bind 2), .request (.emission .returnVoid)]

theorem Emit.decode_interruptedRun : ∃ bytes s code,
    Emit.finish ((Assembly.start [] .void []).after interruptedRun) = .ok bytes s ∧
    bytes = [18, 1, 0, 81, 13, 0, 0, 0, 80, 0, 0, 0, 0, 97, 97] ∧
    Code.decode bytes = .ok code ∧ code.length = 5 ∧
    ∃ k q, BoundAfter ((Assembly.start [] .void []).granted interruptedRun) 1 k ∧
      code[k]? = some q := by
  have hvoid : ∀ c ∈ interruptedRun, ¬ c.IsVoidField := by
    simp [interruptedRun, Call.IsVoidField]
  have hrun : Emit.finish.run' ((Assembly.start [] .void []).after interruptedRun) =
      some [18, 1, 0, 81, 13, 0, 0, 0, 80, 0, 0, 0, 0, 97, 97] := by decide +kernel
  have hcount : (emissions ((Assembly.start [] .void []).granted interruptedRun)).length = 5 := by
    decide +kernel
  have hjump : (emissions ((Assembly.start [] .void []).granted interruptedRun)).any
      (fun emitted => emitted.1.label? == some 1) = true := by decide +kernel
  obtain ⟨s, hrun⟩ := exists_of_run' hrun
  obtain ⟨-, -, code, target, hdecode, hspelled, htarget⟩ := Emit.decode_finish_after hvoid hrun
  obtain ⟨emitted, hemitted, hlabel⟩ := List.any_eq_true.mp hjump
  obtain ⟨k, q, hbound, hq, -⟩ := htarget emitted hemitted 1 (by simpa using hlabel)
  exact ⟨_, s, code, hrun, rfl, hdecode, hspelled.length_eq.symm.trans hcount, k, q, hbound, hq⟩

end Bytecode
