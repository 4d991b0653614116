import Mathlib
import Bytecode.Proofs.Assembly.WellFormed
import Bytecode.Routine

/-!
# Linking

Instructions refer to members by their index in the symbol table of the unit, which all routines of
the unit share and which only grows. A step of assembly is safe when it keeps the code well formed
and every index within the table, whichever way it ends; safe steps in sequence are safe.

## Main definitions

* `SymbolTable.Sound`: every index leads to its reference
* `Instruction.symbol?`: the symbol to which an instruction refers
* `Assembly.Linked`: well-formed code whose symbols are in the table
* `Emit.Safe`: a step that keeps code linked and takes nothing back
* `Emit.Asks`: a step that does nothing but make requests

## Main results

* `SymbolTable.Sound.intern`: interning keeps a table sound
* `Emit.safe_request`, `Emit.safe_prologue`: requests and the prologue of a function are safe
-/

namespace Bytecode

/-! ## Symbol tables -/

namespace SymbolTable

/-- Every index leads to its reference, and the count fits in two bytes. -/
structure Sound (s : SymbolTable) : Prop where
  found : ∀ (text : Text) (i : UInt16), s.index[text]? = some i → s.entries[i.toNat]? = some text
  size_le : s.size ≤ 65535

theorem length_entries (s : SymbolTable) : s.entries.length = s.size := by
  rw [entries, List.length_reverse, s.size_eq]

theorem Sound.empty (owner : Text) : (SymbolTable.empty owner).Sound where
  found text i h := by simp [SymbolTable.empty] at h
  size_le := Nat.zero_le _

/-- What interning finds: the reference is in the table, which keeps its entries. -/
theorem Sound.intern {s t : SymbolTable} {text : Text} {i : UInt16} (hs : s.Sound)
    (h : s.intern text = .ok (i, t)) :
    t.Sound ∧ t.entries[i.toNat]? = some text ∧ s.entries <+: t.entries := by
  unfold SymbolTable.intern at h
  split at h
  · next found hfound =>
    cases h
    exact ⟨hs, hs.found text i hfound, List.prefix_rfl⟩
  · obtain ⟨-, -, h⟩ := exists_of_except_bind h
    split at h
    · cases h
    · next hsize =>
      cases h
      -- the new reference stands right after the old ones
      have hindex : s.size.toUInt16.toNat = s.entries.length := by
        rw [length_entries, Nat.toUInt16_eq, UInt16.toNat_ofNat_of_lt']
        exact Nat.lt_succ_of_lt (Nat.lt_of_not_le hsize)
      have hnew : (s.entries ++ [text])[s.size.toUInt16.toNat]? = some text := by
        rw [hindex, List.getElem?_concat_length]
      simp only [entries, List.reverse_cons]
      refine ⟨⟨fun other j hj => ?_, Nat.lt_of_not_le hsize⟩, hnew, List.prefix_append _ _⟩
      simp only [entries, List.reverse_cons]
      rw [Std.TreeMap.getElem?_insert] at hj
      split at hj
      · next heq =>
        cases hj
        rw [← Std.LawfulEqCmp.eq_of_compare heq]
        exact hnew
      · have hold := hs.found other j hj
        change (s.entries ++ [text])[j.toNat]? = some other
        rw [List.getElem?_append_left (List.getElem?_eq_some_iff.mp hold).1]
        exact hold

/-- The index that interning gives is within the table. -/
theorem lt_size_of_getElem? {s : SymbolTable} {text : Text} {i : UInt16}
    (h : s.entries[i.toNat]? = some text) : i.toNat < s.size := by
  rw [← s.length_entries]
  exact (List.getElem?_eq_some_iff.mp h).1

theorem size_le_of_prefix {s t : SymbolTable} (h : s.entries <+: t.entries) : s.size ≤ t.size := by
  rw [← s.length_entries, ← t.length_entries]
  exact h.length_le

end SymbolTable

/-! ## Linked code -/

/-- The symbol to which an instruction refers. -/
def Instruction.symbol? {α : Type} : Instruction α → Option UInt16
  | ⟨.getStatic, symbol⟩ => some symbol
  | ⟨.putStatic, symbol⟩ => some symbol
  | ⟨.invoke, symbol⟩ => some symbol
  | _ => none

theorem Instruction.symbol?_map {α β : Type} (f : α → β) (i : Instruction α) :
    (i.map f).symbol? = i.symbol? := by
  obtain ⟨op, operand⟩ := i
  cases op <;> rfl

/-- A request refers to a symbol exactly when it names a member. -/
theorem Emission.symbol?_instruction (e : Emission) (types : List ValueType) (result : ValueType)
    (symbol : UInt16) :
    (e.instruction types result symbol).symbol? = e.member?.map fun _ => symbol := by
  cases e with
  | pushBoolean value => cases value <;> rfl
  | arithmetic op type => cases op <;> rfl
  | _ => rfl

/-- Well-formed code whose symbols are in the table. -/
structure Assembly.Linked (s : Assembly) : Prop where
  wellFormed : s.assembler.WellFormed
  symbols : s.symbols.Sound
  within : ∀ i ∈ s.assembler.newest, ∀ n, i.symbol? = some n → n.toNat < s.symbols.size

/-- What a step of assembly does not take back. -/
structure Assembly.Evolves (s t : Assembly) : Prop where
  linked : t.Linked
  returnType_eq : t.assembler.returnType = s.assembler.returnType
  slots_le : s.assembler.locals.slots ≤ t.assembler.locals.slots
  symbols_prefix : s.symbols.entries <+: t.symbols.entries
  code_grows : s.assembler.instructions <+: t.assembler.instructions

theorem Assembly.Evolves.refl {s : Assembly} (h : s.Linked) : s.Evolves s :=
  ⟨h, rfl, le_rfl, List.prefix_rfl, List.prefix_rfl⟩

theorem Assembly.Evolves.trans {s t u : Assembly} (h : s.Evolves t) (h' : t.Evolves u) :
    s.Evolves u where
  linked := h'.linked
  returnType_eq := h'.returnType_eq.trans h.returnType_eq
  slots_le := h.slots_le.trans h'.slots_le
  symbols_prefix := h.symbols_prefix.trans h'.symbols_prefix
  code_grows := h.code_grows.trans h'.code_grows

/-- One more instruction, with a symbol of the table after it. -/
theorem Assembly.Linked.within_cons {s t : Assembly} (hs : s.Linked) {i : Instruction Nat}
    (hnewest : t.assembler.newest = i :: s.assembler.newest)
    (hsymbols : s.symbols.entries <+: t.symbols.entries)
    (hi : ∀ n, i.symbol? = some n → n.toNat < t.symbols.size) :
    ∀ j ∈ t.assembler.newest, ∀ n, j.symbol? = some n → n.toNat < t.symbols.size := by
  intro j hj n hn
  rw [hnewest] at hj
  rcases List.mem_cons.mp hj with rfl | hj
  · exact hi n hn
  · exact (hs.within j hj n hn).trans_le (SymbolTable.size_le_of_prefix hsymbols)

/-- A request that succeeded interned the member it names, and nothing else. -/
theorem Emitted.evolves {e : Emission} {s t : Assembly} {symbol : UInt16} {stack : OperandStack}
    (he : Emitted e s t symbol stack) (hs : s.Linked) : s.Evolves t := by
  have hform := he.wellFormed hs.wellFormed
  have hnewest : t.assembler.newest =
      e.instruction s.assembler.stack.types s.assembler.returnType symbol ::
        s.assembler.newest := by
    rw [he.assembler_eq]
    rfl
  have hresult : t.assembler.returnType = s.assembler.returnType := by
    rw [he.assembler_eq]
    rfl
  have hslots : s.assembler.locals.slots ≤ t.assembler.locals.slots := by
    rw [he.assembler_eq]
    exact le_rfl
  have hcode : s.assembler.instructions <+: t.assembler.instructions := by
    rw [he.assembler_eq, Assembler.instructions_emitted]
    exact List.prefix_append _ _
  rcases he.interned with ⟨hmember, hsymbols⟩ | ⟨text, hmember, hintern⟩
  · -- no member is named
    have hgrown : s.symbols.entries <+: t.symbols.entries := hsymbols ▸ List.prefix_rfl
    refine ⟨⟨hform, hsymbols ▸ hs.symbols, hs.within_cons hnewest hgrown ?_⟩, hresult, hslots,
      hgrown, hcode⟩
    intro n hn
    rw [Emission.symbol?_instruction, hmember] at hn
    cases hn
  · -- its reference is in the table now, and so are those of the instructions before
    obtain ⟨hsound, hentry, hgrown⟩ := hs.symbols.intern hintern
    refine ⟨⟨hform, hsound, hs.within_cons hnewest hgrown ?_⟩, hresult, hslots, hgrown, hcode⟩
    intro n hn
    rw [Emission.symbol?_instruction, hmember] at hn
    cases hn
    exact SymbolTable.lt_size_of_getElem? hentry

theorem Refused.evolves {e : Emission} {s t : Assembly} (he : Refused e s t) (hs : s.Linked) :
    s.Evolves t := by
  have hform := he.wellFormed hs.wellFormed
  cases he with
  | taken hsuffix hdepth =>
    exact ⟨⟨hform, hs.symbols, hs.within⟩, rfl, le_rfl, List.prefix_rfl, List.prefix_rfl⟩
  | written _ _ _ hintern =>
    obtain ⟨hsound, hentry, hgrown⟩ := hs.symbols.intern hintern
    refine ⟨⟨hform, hsound, hs.within_cons rfl hgrown ?_⟩, rfl, le_rfl, hgrown, ?_⟩
    · rintro n ⟨⟩
      exact SymbolTable.lt_size_of_getElem? hentry
    · rw [Assembler.instructions_append]
      exact List.prefix_append _ _

namespace Emit

/-- A step that keeps code linked and takes nothing back, whichever way it ends. -/
def Safe {α : Type} (m : Emit α) : Prop :=
  ∀ s : Assembly, s.Linked → Ends m s (fun _ t => s.Evolves t) (fun _ t => s.Evolves t)

theorem Safe.map {α β : Type} {m : Emit α} (f : α → β) (hm : Safe m) : Safe (f <$> m) :=
  fun s hs => Ends.map (hm s hs)

theorem safe_emission (e : Emission) : Safe (Emit.emission e) := by
  intro s hs
  refine (ends_emission hs.wellFormed.noVoid).mono ?_ fun _ _ he => he.evolves hs
  rintro - t ⟨symbol, stack, he⟩
  exact he.evolves hs

theorem safe_defineLocal (type : ValueType) : Safe (Emit.defineLocal type) := by
  intro s hs
  refine ends_defineLocal (fun _ => .refl hs) fun _ _ => ?_
  exact ⟨⟨hs.wellFormed.defineLocal type, hs.symbols, hs.within⟩, rfl, Nat.le_add_right _ _,
    List.prefix_rfl, List.prefix_rfl⟩

theorem safe_openCode : Safe Emit.openCode := fun _ hs =>
  ⟨⟨hs.wellFormed.taken (List.suffix_refl _) true, hs.symbols, hs.within⟩, rfl, le_rfl,
    List.prefix_rfl, List.prefix_rfl⟩

theorem safe_close : Safe Emit.close := fun _ hs =>
  ⟨⟨hs.wellFormed.taken (List.suffix_refl _) false, hs.symbols, hs.within⟩, rfl, le_rfl,
    List.prefix_rfl, List.prefix_rfl⟩

theorem safe_newLabel : Safe Emit.newLabel := fun _ hs =>
  ⟨⟨hs.wellFormed.newLabel, hs.symbols, hs.within⟩, rfl, le_rfl, List.prefix_rfl,
    List.prefix_rfl⟩

theorem safe_bind (label : Nat) : Safe (Emit.bind label) := by
  intro s hs
  refine ends_bind.mono ?_ fun _ t ht => ?_
  · rintro - t ⟨l, stack, hbound⟩
    have hform := hbound.wellFormed hs.wellFormed
    obtain rfl := hbound.eq
    exact ⟨⟨hform, hs.symbols, hs.within⟩, rfl, le_rfl, List.prefix_rfl, List.prefix_rfl⟩
  · rw [ht]
    exact .refl hs

/-- Every request is safe. -/
theorem safe_request : ∀ r : Request, Safe (Emit.request r)
  | .openCode => safe_openCode
  | .close => safe_close
  | .defineLocal type => (safe_defineLocal type).map _
  | .newLabel => safe_newLabel.map _
  | .bind label => safe_bind label
  | .emission e => safe_emission e

end Emit

/-! ## Steps that are made of requests -/

/-- Requests lead from one assembly to the other, granted or not. -/
def Assembly.Reaches : Assembly → Assembly → Prop :=
  Relation.ReflTransGen fun s t => ∃ r, t = leaves (Emit.request r) s

namespace Emit

/-- A step that does nothing but make requests, whichever way it ends. -/
def Asks {α : Type} (m : Emit α) : Prop :=
  ∀ s : Assembly, Ends m s (fun _ => s.Reaches) fun _ => s.Reaches

theorem Asks.pure {α : Type} (x : α) : Asks (Pure.pure x) := fun _ => .refl

theorem Asks.bind {α β : Type} {m : Emit α} {f : α → Emit β} (hm : Asks m)
    (hf : ∀ x, Asks (f x)) : Asks (m >>= f) := by
  intro s
  refine Ends.bind ((hm s).mono (fun x t ht => ?_) fun _ _ ht => ht)
  exact (hf x t).mono (fun _ _ hu => ht.trans hu) fun _ _ hu => ht.trans hu

theorem Asks.map {α β : Type} {m : Emit α} (f : α → β) (hm : Asks m) : Asks (f <$> m) :=
  fun s => Ends.map (hm s)

theorem asks_request (r : Request) : Asks (Emit.request r) := by
  intro s
  have hstep : s.Reaches (leaves (Emit.request r) s) := .single ⟨r, rfl⟩
  cases hm : Emit.request r s with
  | ok x t => exact Ends.of_ok hm (by simpa only [leaves, hm] using hstep)
  | error e t => exact Ends.of_error hm (by simpa only [leaves, hm] using hstep)

theorem asks_emission (e : Emission) : Asks (Emit.emission e) := asks_request (.emission e)

theorem asks_defineLocal (type : ValueType) : Asks (Emit.defineLocal type) := by
  intro s
  have hstep : s.Reaches (leaves (Emit.request (.defineLocal type)) s) := .single ⟨_, rfl⟩
  cases hm : Emit.defineLocal type s with
  | ok x t =>
    have hrequest : Emit.request (.defineLocal type) s = .ok () t := by
      simp only [Emit.request, discard, Functor.mapConst, EStateM.map, Function.comp, hm]
    exact Ends.of_ok hm (by simpa only [leaves, hrequest] using hstep)
  | error e t =>
    have hrequest : Emit.request (.defineLocal type) s = .error e t := by
      simp only [Emit.request, discard, Functor.mapConst, EStateM.map, Function.comp, hm]
    exact Ends.of_error hm (by simpa only [leaves, hrequest] using hstep)

/-- The prologue of a function is made of requests. -/
theorem asks_prologue (a : Attributes) (layout : Layout) (scopeSize : Nat) :
    Asks (Emit.prologue a layout scopeSize) := by
  have hself : Asks (selfLocal layout.callee) := by
    refine (asks_defineLocal _).bind fun self => ?_
    cases layout.callee with
    | none => exact .pure _
    | some callee => exact (asks_emission _).bind fun _ => (asks_emission _).bind fun _ => .pure _
  have hscope : Asks (scopeLocal layout.parentScope scopeSize.toUInt16) := by
    refine (asks_defineLocal _).bind fun scope => ?_
    -- both ways to get the parent go on in the same way
    have hrest : Asks (do
        emission (.newScope scopeSize.toUInt16)
        emission (.store .scope scope)
        return scope) :=
      (asks_emission _).bind fun _ => (asks_emission _).bind fun _ => .pure _
    cases layout.parentScope with
    | none => exact (asks_emission _).bind fun _ => hrest
    | some parent => exact (asks_emission _).bind fun _ => hrest
  unfold prologue
  cases a.usesSelfSymbol with
  | false =>
    cases a.hasScopeBlock with
    | false => exact .pure _
    | true => exact (hscope.map some).bind fun _ => .pure _
  | true =>
    refine (hself.map some).bind fun _ => ?_
    cases a.hasScopeBlock with
    | false => exact .pure _
    | true => exact (hscope.map some).bind fun _ => .pure _

end Emit

/-- Requests keep code linked. -/
theorem Assembly.Reaches.evolves {s t : Assembly} (h : s.Reaches t) (hs : s.Linked) :
    s.Evolves t := by
  induction h with
  | refl => exact .refl hs
  | tail _ hstep ih =>
    obtain ⟨r, rfl⟩ := hstep
    exact ih.trans (Emit.safe_request r _ ih.linked).leaves

theorem Emit.Asks.safe {α : Type} {m : Emit α} (hm : Asks m) : Safe m := fun s hs =>
  (hm s).mono (fun _ _ ht => ht.evolves hs) fun _ _ ht => ht.evolves hs

/-- The prologue of a function is safe. -/
theorem Emit.safe_prologue (a : Attributes) (layout : Layout) (scopeSize : Nat) :
    Safe (Emit.prologue a layout scopeSize) := (asks_prologue a layout scopeSize).safe

end Bytecode
