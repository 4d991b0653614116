import Mathlib
import Bytecode.Proofs.Assembly.Symbols
import Bytecode.Proofs.Descriptor

/-!
# References to members

A member is referred to by the text of its owner, its name and its type, put together with a dot
and a colon. Owner and name may be any bytes, dots and colons among them, so the text cannot always
be taken apart again: two owners may share a text. But no type is written with a colon. The last
colon of a text therefore stands before the type, and of one owner each text refers to one member.

Any number of assemblers share a symbol table, and requests are made of them in any order. The index
that an instruction carries for its member then tells the member, among those of one owner.

## Main definitions

* `MemberReference`: whose a member is, its name and its type
* `MemberType.Alike`: types of members that are written alike
* `SharedAssembly`: assemblers that share a symbol table
* `SharedAssembly.Refers`: the index that a granted request has written for its member

## Main results

* `MemberReference.text_eq_text_iff`: which references of one owner have the same text
* `SharedAssembly.Sound.after`: requests keep the table faithful, whichever way they end
* `SharedAssembly.refers_identifies`: of one owner, an index stands for one member
-/

namespace Bytecode

/-! ## The text of a reference -/

/-- A text is cut at its last separator in one way only. -/
theorem append_cons_inj_of_notMem {before before' after after' : Text} {separator : UInt8}
    (hafter : separator ∉ after) (hafter' : separator ∉ after')
    (h : before ++ separator :: after = before' ++ separator :: after') :
    before = before' ∧ after = after' := by
  -- were one part longer than the other, a separator would stand in the last part
  rcases List.append_eq_append_iff.mp h with ⟨more, rfl, hmore⟩ | ⟨more, rfl, hmore⟩
  · cases more with
    | nil => exact ⟨(List.append_nil before).symm, (List.cons.inj hmore).2⟩
    | cons b more =>
      refine absurd ?_ hafter
      rw [(List.cons.inj hmore).2]
      exact List.mem_append_right more List.mem_cons_self
  · cases more with
    | nil => exact ⟨List.append_nil before', (List.cons.inj hmore).2.symm⟩
    | cons b more =>
      refine absurd ?_ hafter'
      rw [(List.cons.inj hmore).2]
      exact List.mem_append_right more List.mem_cons_self

theorem ValueType.colon_notMem_descriptor (t : ValueType) : 58 ∉ t.descriptor := by
  cases t <;> decide

theorem ValueType.parenthesis_notMem_descriptor (t : ValueType) : 40 ∉ t.descriptor := by
  cases t <;> decide

theorem Signature.colon_notMem_descriptor (s : Signature) : 58 ∉ s.descriptor := by
  rw [descriptor_eq]
  intro hmem
  rcases List.mem_cons.mp hmem with hopen | hmem
  · exact absurd hopen (by decide)
  · rcases List.mem_append.mp hmem with hparam | hmem
    · obtain ⟨t, -, ht⟩ := List.mem_flatMap.mp hparam
      exact t.colon_notMem_descriptor ht
    · rcases List.mem_cons.mp hmem with hclose | hresult
      · exact absurd hclose (by decide)
      · exact s.result.colon_notMem_descriptor hresult

namespace MemberType

variable {a b : MemberType}

/-- The type of a member as it is written in a reference. -/
def descriptor : MemberType → Text
  | field type => type.descriptor
  | routine signature => signature.descriptor

/-- Types of members that are written alike: the same type for fields, the same parameter types and
the same result type for routines. A field and a routine are never written alike. -/
def Alike : MemberType → MemberType → Prop
  | field type, field type' => type = type'
  | routine signature, routine signature' =>
    signature.params = signature'.params ∧ signature.result = signature'.result
  | _, _ => False

theorem colon_notMem_descriptor (a : MemberType) : 58 ∉ a.descriptor := by
  cases a with
  | field type => exact type.colon_notMem_descriptor
  | routine signature => exact signature.colon_notMem_descriptor

/-- The type of a field is not written with a parenthesis. -/
theorem descriptor_field_ne (type : ValueType) (signature : Signature) :
    type.descriptor ≠ signature.descriptor := by
  intro h
  have hopen := type.parenthesis_notMem_descriptor
  rw [h, Signature.descriptor_eq] at hopen
  exact hopen List.mem_cons_self

theorem descriptor_eq_iff_alike : a.descriptor = b.descriptor ↔ a.Alike b := by
  cases a with
  | field type =>
    cases b with
    | field type' => exact ValueType.descriptor_inj
    | routine signature' => exact iff_of_false (descriptor_field_ne type signature') id
  | routine signature =>
    cases b with
    | field type' => exact iff_of_false (descriptor_field_ne type' signature).symm id
    | routine signature' => exact Signature.descriptor_eq_descriptor_iff

end MemberType

/-- A reference to a member: whose it is, its name and its type. -/
structure MemberReference where
  owner : Text
  name : Text
  type : MemberType

namespace MemberReference

variable {r r' : MemberReference}

/-- The text of a reference. -/
def text (r : MemberReference) : Text := SymbolTable.member r.owner r.name r.type.descriptor

theorem text_eq (r : MemberReference) :
    r.text = (r.owner ++ 46 :: r.name) ++ 58 :: r.type.descriptor := by
  have hdot : Text.ofString "." = [46] := by decide
  have hcolon : Text.ofString ":" = [58] := by decide
  simp [text, SymbolTable.member, hdot, hcolon]

/-- The last colon of a reference stands before the type. -/
theorem text_eq_text_iff_split : r.text = r'.text ↔
    r.owner ++ 46 :: r.name = r'.owner ++ 46 :: r'.name ∧ r.type.Alike r'.type := by
  rw [text_eq, text_eq, ← MemberType.descriptor_eq_iff_alike]
  constructor
  · exact append_cons_inj_of_notMem r.type.colon_notMem_descriptor r'.type.colon_notMem_descriptor
  · rintro ⟨hmember, htype⟩
    rw [hmember, htype]

/-- **Of one owner, each text refers to one member.** -/
theorem text_eq_text_iff (howner : r.owner = r'.owner) :
    r.text = r'.text ↔ r.name = r'.name ∧ r.type.Alike r'.type := by
  rw [text_eq_text_iff_split, howner]
  simp

/-- Members of different owners may have the same text. -/
example : text ⟨"a.b", "c", .field .int⟩ = text ⟨"a", "b.c", .field .int⟩ := by decide

end MemberReference

/-- The member to which a request refers. -/
def Emission.reference? : Emission → Option MemberReference
  | getStatic owner name type => some ⟨owner, name, .field type⟩
  | putStatic owner name type => some ⟨owner, name, .field type⟩
  | invoke owner name signature => some ⟨owner, name, .routine signature⟩
  | _ => none

theorem Emission.member?_of_reference? {e : Emission} {r : MemberReference}
    (h : e.reference? = some r) : e.member? = some r.text := by
  cases e with
  | getStatic | putStatic | invoke =>
    cases h
    rfl
  | _ => cases h

/-! ## Assemblers that share a symbol table -/

/-- Assemblers that share a symbol table. -/
structure SharedAssembly where
  assemblers : Nat → Assembler
  symbols : SymbolTable

namespace SharedAssembly

variable {s : SharedAssembly} {ops : List (Nat × Request)} {m n : Nat}

/-- Assemblers without code, each with its name and the type that it returns, and a table without
references. -/
def new (unit : Text) (routines : Nat → Text × ValueType) : SharedAssembly where
  assemblers id := Assembler.new (routines id).1 (routines id).2
  symbols := .empty unit

/-- One of the assemblers, with the table. -/
def one (s : SharedAssembly) (id : Nat) : Assembly := ⟨s.assemblers id, s.symbols⟩

/-- What a request to one of the assemblers leaves behind, granted or not. -/
def step (s : SharedAssembly) (op : Nat × Request) : SharedAssembly where
  assemblers id :=
    if id = op.1 then (leaves (Emit.request op.2) (s.one op.1)).assembler else s.assemblers id
  symbols := (leaves (Emit.request op.2) (s.one op.1)).symbols

/-- What requests leave behind, in order. -/
def after (s : SharedAssembly) (ops : List (Nat × Request)) : SharedAssembly := ops.foldl step s

/-- What every request keeps. -/
structure Sound (s : SharedAssembly) : Prop where
  wellFormed : ∀ id, (s.assemblers id).WellFormed
  faithful : s.symbols.Faithful

theorem Sound.new (unit : Text) (routines : Nat → Text × ValueType) :
    (SharedAssembly.new unit routines).Sound where
  wellFormed id := .start (routines id).1 (routines id).2 false
  faithful := .empty unit

/-- A request to one of the assemblers looks up one member at most. -/
theorem Sound.yields (hs : s.Sound) (op : Nat × Request) :
    ∃ member? symbol, s.symbols.Yields member? symbol (s.step op).symbols :=
  (Emit.ends_request_yields op.2 (hs.wellFormed op.1).noVoid).leaves

theorem Sound.step (hs : s.Sound) (op : Nat × Request) : (s.step op).Sound := by
  refine ⟨fun id => ?_, ?_⟩
  · unfold SharedAssembly.step
    dsimp only
    split
    · exact (Emit.ends_request_wellFormed op.2 (hs.wellFormed op.1)).leaves
    · exact hs.wellFormed id
  · obtain ⟨_, _, hyields⟩ := hs.yields op
    exact hyields.faithful hs.faithful

/-- Requests keep the table faithful, and every entry at its index. -/
theorem Sound.after (hs : s.Sound) (ops : List (Nat × Request)) :
    (s.after ops).Sound ∧ s.symbols.entries <+: (s.after ops).symbols.entries := by
  induction ops generalizing s with
  | nil => exact ⟨hs, List.prefix_rfl⟩
  | cons op ops ih =>
    obtain ⟨_, _, hyields⟩ := hs.yields op
    obtain ⟨hsound, hgrown⟩ := ih (hs.step op)
    exact ⟨hsound, (hyields.prefix_entries hs.faithful.sound).trans hgrown⟩

theorem after_append (s : SharedAssembly) (ops more : List (Nat × Request)) :
    s.after (ops ++ more) = (s.after ops).after more := List.foldl_append

theorem after_take_succ {op : Nat × Request} (h : ops[n]? = some op) :
    s.after (ops.take (n + 1)) = (s.after (ops.take n)).step op := by
  rw [List.take_add_one, h, Option.toList_some, after_append]
  rfl

theorem entries_prefix_after_take (hs : s.Sound) (h : m ≤ n) :
    (s.after (ops.take m)).symbols.entries <+: (s.after (ops.take n)).symbols.entries := by
  obtain ⟨k, rfl⟩ := Nat.exists_eq_add_of_le h
  rw [List.take_add, after_append]
  exact ((hs.after (ops.take m)).1.after _).2

/-! ## What an index stands for -/

/-- The `n`-th request of a run refers to the member `r`, it is granted, and `symbol` is the index
in the instruction that it writes. -/
def Refers (s : SharedAssembly) (ops : List (Nat × Request)) (n : Nat) (r : MemberReference)
    (symbol : UInt16) : Prop :=
  ∃ id e t i, ops[n]? = some (id, .emission e) ∧ e.reference? = some r ∧
    Emit.emission e ((s.after (ops.take n)).one id) = .ok () t ∧
    t.assembler.instructions = ((s.after (ops.take n)).assemblers id).instructions ++ [i] ∧
    i.symbol? = some symbol

/-- A granted request that refers to a member writes one instruction, and the index in it leads to
the text of the member. -/
theorem exists_symbol_of_emission {a t : Assembly} {e : Emission} {r : MemberReference}
    (ha : a.assembler.WellFormed) (hsymbols : a.symbols.Sound) (hr : e.reference? = some r)
    (h : Emit.emission e a = .ok () t) :
    ∃ i symbol, t.assembler.instructions = a.assembler.instructions ++ [i] ∧
      i.symbol? = some symbol ∧ t.symbols.entries[symbol.toNat]? = some r.text := by
  have hmember := Emission.member?_of_reference? hr
  obtain ⟨symbol, hyields, hnewest⟩ := (Emit.ends_request_code (.emission e) ha.noVoid).ok h
  refine ⟨e.instruction a.assembler.stack.types a.assembler.returnType symbol, symbol, ?_, ?_, ?_⟩
  · rw [Assembler.instructions, hnewest, List.reverse_append]
    rfl
  · rw [Emission.symbol?_instruction, hmember, Option.map_some]
  · exact hyields.getElem?_symbol hsymbols hmember

/-- The table after a granted request is the one that the request leaves. -/
theorem symbols_after_take_succ {id : Nat} {e : Emission} {t : Assembly}
    (hop : ops[n]? = some (id, .emission e))
    (h : Emit.emission e ((s.after (ops.take n)).one id) = .ok () t) :
    (s.after (ops.take (n + 1))).symbols = t.symbols := by
  have hrequest : Emit.request (.emission e) ((s.after (ops.take n)).one id) = .ok () t := h
  rw [after_take_succ hop, step, leaves, hrequest]

/-- A granted request that refers to a member has an index for it. -/
theorem exists_refers (hs : s.Sound) {id : Nat} {e : Emission} {r : MemberReference} {t : Assembly}
    (hop : ops[n]? = some (id, .emission e)) (hr : e.reference? = some r)
    (h : Emit.emission e ((s.after (ops.take n)).one id) = .ok () t) :
    ∃ symbol, s.Refers ops n r symbol := by
  have hsound := (hs.after (ops.take n)).1
  obtain ⟨i, symbol, hcode, hsymbol, -⟩ :=
    exists_symbol_of_emission (hsound.wellFormed id) hsound.faithful.sound hr h
  exact ⟨symbol, id, e, t, i, hop, hr, h, hcode, hsymbol⟩

/-- The index that is written for a member leads to its text from then on. -/
theorem Refers.getElem? (hs : s.Sound) {r : MemberReference} {symbol : UInt16}
    (h : s.Refers ops n r symbol) (hnm : n < m) :
    (s.after (ops.take m)).symbols.entries[symbol.toNat]? = some r.text := by
  obtain ⟨id, e, t, i, hop, hr, hgranted, hcode, hsymbol⟩ := h
  have hsound := (hs.after (ops.take n)).1
  obtain ⟨i', symbol', hcode', hsymbol', hentry⟩ :=
    exists_symbol_of_emission (hsound.wellFormed id) hsound.faithful.sound hr hgranted
  -- one instruction is written, so it is the same one
  have hsame : i = i' := by
    have happend := hcode.symm.trans hcode'
    exact List.head_eq_of_cons_eq (List.append_cancel_left happend)
  rw [hsame, hsymbol'] at hsymbol
  rw [Option.some.inj hsymbol, ← symbols_after_take_succ hop hgranted] at hentry
  exact getElem?_of_prefix (entries_prefix_after_take hs hnm) hentry

/-- **Of one owner, an index stands for one member.** Requests are made of any assemblers that share
a new symbol table, in any order, and some may be rejected. At every moment the entries of the table
are all different, there are at most 65535 of them with at most 65535 bytes each, and they keep
their indices. Every granted request that refers to a member has written an index, at which the text
of the member stands from then on. Two such requests with the same owner have written the same index
if and only if they have the same name and, for fields, the same type, for routines, the same
parameter types and the same result type. A field and a routine never have the same index, whoever
owns them. -/
theorem refers_identifies (unit : Text) (routines : Nat → Text × ValueType)
    (ops : List (Nat × Request)) :
    let start := SharedAssembly.new unit routines
    let symbols := fun n => (start.after (ops.take n)).symbols
    (∀ n, (symbols n).entries.Nodup ∧ (symbols n).entries.length ≤ 65535 ∧
      ∀ text ∈ (symbols n).entries, text.length ≤ 65535) ∧
    (∀ m n, m ≤ n → (symbols m).entries <+: (symbols n).entries) ∧
    (∀ n id e r t, ops[n]? = some (id, .emission e) → e.reference? = some r →
      Emit.emission e ((start.after (ops.take n)).one id) = .ok () t →
        ∃ symbol, start.Refers ops n r symbol) ∧
    (∀ m n r symbol, start.Refers ops n r symbol → n < m →
      (symbols m).entries[symbol.toNat]? = some r.text) ∧
    ∀ m n r r' symbol symbol', start.Refers ops m r symbol → start.Refers ops n r' symbol' →
      (r.owner = r'.owner → (symbol = symbol' ↔ r.name = r'.name ∧ r.type.Alike r'.type)) ∧
      ∀ type signature, r.type = .field type → r'.type = .routine signature →
        symbol ≠ symbol' := by
  intro start symbols
  have hstart : start.Sound := .new unit routines
  have hfaithful : ∀ n, (symbols n).Faithful := fun n => (hstart.after (ops.take n)).1.faithful
  refine ⟨fun n => ⟨(hfaithful n).nodup, ?_, (hfaithful n).short⟩,
    fun m n => entries_prefix_after_take hstart,
    fun n id e r t => exists_refers hstart,
    fun m n r symbol h => h.getElem? hstart, ?_⟩
  · rw [SymbolTable.length_entries]
    exact (hfaithful n).sound.size_le
  · intro m n r r' symbol symbol' hr hr'
    -- both are looked at in the table after the later one
    have hentry := hr.getElem? hstart (Nat.lt_succ_of_le (le_max_left m n))
    have hentry' := hr'.getElem? hstart (Nat.lt_succ_of_le (le_max_right m n))
    have htext : symbol = symbol' ↔ r.text = r'.text := by
      rw [← UInt16.toNat_inj]
      exact index_eq_iff_of_nodup (hfaithful _).nodup hentry hentry'
    refine ⟨fun howner => htext.trans (MemberReference.text_eq_text_iff howner), ?_⟩
    intro type signature hfield hroutine hsame
    obtain ⟨-, halike⟩ := MemberReference.text_eq_text_iff_split.mp (htext.mp hsame)
    rw [hfield, hroutine] at halike
    exact halike

/-- Two routines that refer to members whose names hold a colon and a parenthesis. -/
def trickyNames : List (Nat × Request) :=
  [(0, .openCode), (1, .openCode), (0, .emission (.getStatic "a.b" "x:(I" .int)),
    (1, .emission (.getStatic "a.b" "x" .int)), (1, .emission (.getStatic "a.b" "x" .void)),
    (1, .emission (.invoke "a.b" "x" { result := .void, params := [.int] })),
    (0, .emission (.putStatic "a.b" "x:(I" .int))]

/-- The same field is read and written under one index, and a routine has another one, although a
request between them is rejected. -/
theorem refers_identifies_trickyNames :
    let start := SharedAssembly.new "unit" fun _ => ("routine", .void)
    ∃ read written called,
      start.Refers trickyNames 2 ⟨"a.b", "x:(I", .field .int⟩ read ∧
      start.Refers trickyNames 6 ⟨"a.b", "x:(I", .field .int⟩ written ∧
      start.Refers trickyNames 5
        ⟨"a.b", "x", .routine { result := .void, params := [.int] }⟩ called ∧
      read = written ∧ read ≠ called := by
  intro start
  obtain ⟨-, -, hrefers, -, hsame⟩ :=
    refers_identifies "unit" (fun _ => ("routine", .void)) trickyNames
  have hread : (Emit.emission (.getStatic "a.b" "x:(I" .int)).run'
      ((start.after (trickyNames.take 2)).one 0) = some () := by decide +kernel
  have hwritten : (Emit.emission (.putStatic "a.b" "x:(I" .int)).run'
      ((start.after (trickyNames.take 6)).one 0) = some () := by decide +kernel
  have hcalled : (Emit.emission (.invoke "a.b" "x" { result := .void, params := [.int] })).run'
      ((start.after (trickyNames.take 5)).one 1) = some () := by decide +kernel
  obtain ⟨_, hread⟩ := exists_of_run' hread
  obtain ⟨_, hwritten⟩ := exists_of_run' hwritten
  obtain ⟨_, hcalled⟩ := exists_of_run' hcalled
  obtain ⟨read, hread⟩ := hrefers 2 0 _ _ _ rfl rfl hread
  obtain ⟨written, hwritten⟩ := hrefers 6 0 _ _ _ rfl rfl hwritten
  obtain ⟨called, hcalled⟩ := hrefers 5 1 _ _ _ rfl rfl hcalled
  refine ⟨read, written, called, hread, hwritten, hcalled, ?_, ?_⟩
  · exact ((hsame _ _ _ _ _ _ hread hwritten).1 rfl).mpr ⟨rfl, rfl⟩
  · exact (hsame _ _ _ _ _ _ hread hcalled).2 _ _ rfl rfl

end SharedAssembly

end Bytecode
