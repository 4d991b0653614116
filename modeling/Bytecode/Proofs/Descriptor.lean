import Mathlib
import Bytecode.Signature

/-!
# Descriptors

A descriptor tells the parameter and result types of a routine, and nothing else: it does not tell
whether the routine takes a variable argument list. The code of a type is never the beginning of
another one, and none begins with a parenthesis, so the types can be told from the text alone.
Reading accepts the descriptors of signatures without void parameters, and no other text.

## Main results

* `Signature.ofDescriptor?_descriptor`: a signature is read back from its descriptor
* `Signature.descriptor_eq_descriptor_iff`: signatures with the same descriptor
* `Signature.ofDescriptor?_exact`: a text is read exactly as the signature that it describes
-/

namespace Bytecode

/-- The code of a type is one byte, or an opening bracket and one byte. -/
theorem ValueType.descriptor_cases (t : ValueType) :
    (∃ code, t.descriptor = [code] ∧ Signature.simpleType? code = some t ∧ code ≠ 41 ∧ code ≠ 91) ∨
      ∃ code, t.descriptor = [91, code] ∧ Signature.arrayType? code = some t := by
  cases t <;>
    first
    | exact .inl ⟨_, rfl, rfl, by decide, by decide⟩
    | exact .inr ⟨_, rfl, rfl⟩

/-- No code of a type is the beginning of another one. -/
theorem ValueType.descriptor_append_inj {t t' : ValueType} {rest rest' : Text}
    (h : t.descriptor ++ rest = t'.descriptor ++ rest') : t = t' ∧ rest = rest' := by
  rcases t.descriptor_cases with ⟨code, hcode, htype, -, hopen⟩ | ⟨code, hcode, htype⟩ <;>
    rcases t'.descriptor_cases with ⟨code', hcode', htype', -, hopen'⟩ | ⟨code', hcode', htype'⟩ <;>
    rw [hcode, hcode'] at h
  · obtain ⟨rfl, rfl⟩ := List.cons.inj h
    exact ⟨Option.some.inj (htype.symm.trans htype'), rfl⟩
  · -- only the code of an array starts with a bracket
    exact absurd (List.cons.inj h).1 hopen
  · exact absurd (List.cons.inj h).1.symm hopen'
  · obtain ⟨rfl, rfl⟩ := List.cons.inj (List.cons.inj h).2
    exact ⟨Option.some.inj (htype.symm.trans htype'), rfl⟩

theorem ValueType.descriptor_inj {t t' : ValueType} : t.descriptor = t'.descriptor ↔ t = t' := by
  refine ⟨fun h => ?_, congrArg descriptor⟩
  have hsame : t.descriptor ++ [] = t'.descriptor ++ [] := by rw [h]
  exact (descriptor_append_inj hsame).1

/-- The code of a type does not start with a closing parenthesis. -/
theorem ValueType.descriptor_append_ne {t : ValueType} {rest rest' : Text} :
    t.descriptor ++ rest ≠ 41 :: rest' := by
  intro h
  rcases t.descriptor_cases with ⟨code, hcode, -, hclose, -⟩ | ⟨code, hcode, -⟩
  · rw [hcode] at h
    exact hclose (List.cons.inj h).1
  · rw [hcode] at h
    exact absurd (List.cons.inj h).1 (by decide)

namespace Signature

/-- The bytes of a descriptor. -/
theorem descriptor_eq (s : Signature) :
    s.descriptor = 40 :: (s.params.flatMap ValueType.descriptor ++ 41 :: s.result.descriptor) := by
  have hopen : Text.ofString "(" = [40] := by decide
  have hclose : Text.ofString ")" = [41] := by decide
  simp [descriptor, hopen, hclose]

/-! ## What a descriptor tells -/

/-- The codes of parameters end at the first closing parenthesis that is none of them. -/
theorem flatMap_descriptor_inj {params params' : List ValueType} {rest rest' : Text}
    (h : params.flatMap ValueType.descriptor ++ 41 :: rest =
      params'.flatMap ValueType.descriptor ++ 41 :: rest') : params = params' ∧ rest = rest' := by
  induction params generalizing params' with
  | nil =>
    cases params' with
    | nil => exact ⟨rfl, (List.cons.inj h).2⟩
    | cons t' params' =>
      rw [List.flatMap_cons, List.append_assoc] at h
      exact absurd h.symm ValueType.descriptor_append_ne
  | cons t params ih =>
    rw [List.flatMap_cons, List.append_assoc] at h
    cases params' with
    | nil => exact absurd h ValueType.descriptor_append_ne
    | cons t' params' =>
      rw [List.flatMap_cons, List.append_assoc] at h
      obtain ⟨rfl, htail⟩ := ValueType.descriptor_append_inj h
      obtain ⟨rfl, hrest⟩ := ih htail
      exact ⟨rfl, hrest⟩

/-- **A descriptor tells the types of a signature, and nothing else.** -/
theorem descriptor_eq_descriptor_iff {s s' : Signature} :
    s.descriptor = s'.descriptor ↔ s.params = s'.params ∧ s.result = s'.result := by
  constructor
  · intro h
    rw [descriptor_eq, descriptor_eq] at h
    obtain ⟨hparams, hresult⟩ := flatMap_descriptor_inj (List.cons.inj h).2
    exact ⟨hparams, ValueType.descriptor_inj.mp hresult⟩
  · rintro ⟨hparams, hresult⟩
    rw [descriptor, descriptor, hparams, hresult]

/-! ## Reading a descriptor back -/

/-- The result type is read back from its code. -/
theorem typeOf?_descriptor (t : ValueType) : typeOf? t.descriptor = some t := by
  rcases t.descriptor_cases with ⟨code, hcode, htype, -⟩ | ⟨code, hcode, htype⟩
  · rw [hcode]
    exact htype
  · rw [hcode]
    exact htype

/-- The parameter types are read back from their codes, up to the closing parenthesis. -/
theorem splitParams?_descriptor {params : List ValueType} (hparams : .void ∉ params)
    (done : List ValueType) (rest : Text) :
    splitParams? done (params.flatMap ValueType.descriptor ++ 41 :: rest) =
      some (done.reverse ++ params, rest) := by
  induction params generalizing done with
  | nil => simp [splitParams?]
  | cons t params ih =>
    have ht : t ≠ .void := fun h => hparams (h ▸ List.mem_cons_self)
    have hrest := ih (fun h => hparams (List.mem_cons_of_mem t h)) (t :: done)
    rw [List.reverse_cons, List.append_assoc, List.singleton_append] at hrest
    rw [List.flatMap_cons, List.append_assoc, ← hrest]
    rcases t.descriptor_cases with ⟨code, hcode, htype, hclose, hopen⟩ | ⟨code, hcode, htype⟩
    · -- neither a parenthesis nor a bracket, so the last rule applies
      rw [hcode, List.singleton_append, splitParams?]
      · simp [htype, ht]
      · exact hclose
      · exact fun _ _ h => absurd h hopen
    · rw [hcode]
      simp [splitParams?, htype]

/-- **A signature is read back from its descriptor**, but for its variable arguments. -/
theorem ofDescriptor?_descriptor {s : Signature} (h : .void ∉ s.params) :
    ofDescriptor? s.descriptor = some { s with varArgs := false } := by
  rw [descriptor_eq, ofDescriptor?, splitParams?_descriptor h, Option.bind_eq_bind,
    Option.bind_some]
  simp [typeOf?_descriptor]

/-! ## What was read -/

/-- A byte that is read as a type is its code. -/
theorem descriptor_of_simpleType? {code : UInt8} {t : ValueType} (h : simpleType? code = some t) :
    t.descriptor = [code] := by
  unfold simpleType? at h
  split at h <;> cases h <;> rfl

/-- A byte that is read as the elements of an array is their code. -/
theorem descriptor_of_arrayType? {code : UInt8} {t : ValueType} (h : arrayType? code = some t) :
    t.descriptor = [91, code] := by
  obtain ⟨component, hcomponent, harray⟩ := Option.bind_eq_some_iff.mp h
  have hbracket : t.descriptor = 91 :: component.descriptor := by
    cases component <;> cases harray <;> rfl
  rw [hbracket, descriptor_of_simpleType? hcomponent]

/-- A text that is read as a type is its code. -/
theorem descriptor_of_typeOf? {text : Text} {t : ValueType} (h : typeOf? text = some t) :
    t.descriptor = text := by
  unfold typeOf? at h
  split at h
  · exact descriptor_of_simpleType? h
  · exact descriptor_of_arrayType? h
  · cases h

/-- The parameters that were read are not void, and their codes stand before the parenthesis. -/
theorem flatMap_descriptor_of_splitParams? {done params : List ValueType} {text rest : Text}
    (h : splitParams? done text = some (params, rest)) :
    ∃ found, params = done.reverse ++ found ∧ .void ∉ found ∧
      text = found.flatMap ValueType.descriptor ++ 41 :: rest := by
  fun_induction splitParams? done text with
  | case1 => cases h
  | case2 done rest =>
    cases h
    exact ⟨[], (List.append_nil _).symm, List.not_mem_nil, rfl⟩
  | case3 => cases h
  | case4 done code text type htype ih =>
    obtain ⟨found, rfl, hvoid, rfl⟩ := ih h
    have hcode := descriptor_of_arrayType? htype
    have htypeVoid : type ≠ .void := by
      rintro rfl
      cases hcode
    refine ⟨type :: found, by simp, ?_, by simp [hcode]⟩
    exact List.not_mem_cons_of_ne_of_not_mem htypeVoid.symm hvoid
  | case5 => cases h
  | case6 => cases h
  | case7 done code text _ _ type htype htypeVoid ih =>
    obtain ⟨found, rfl, hvoid, rfl⟩ := ih h
    refine ⟨type :: found, by simp, ?_, by simp [descriptor_of_simpleType? htype]⟩
    exact List.not_mem_cons_of_ne_of_not_mem (fun h => htypeVoid (by simp [← h])) hvoid

/-- A text that is read as a signature describes it. -/
theorem descriptor_of_ofDescriptor? {d : Text} {s : Signature} (h : ofDescriptor? d = some s) :
    s.varArgs = false ∧ .void ∉ s.params ∧ s.descriptor = d := by
  unfold ofDescriptor? at h
  split at h
  · next text =>
    obtain ⟨⟨params, rest⟩, hsplit, h⟩ := Option.bind_eq_some_iff.mp h
    obtain ⟨result, hresult, h⟩ := Option.bind_eq_some_iff.mp h
    cases h
    obtain ⟨found, hfound, hvoid, htext⟩ := flatMap_descriptor_of_splitParams? hsplit
    obtain rfl : params = found := hfound
    refine ⟨rfl, hvoid, ?_⟩
    rw [descriptor_eq, htext, descriptor_of_typeOf? hresult]
  · cases h

/-- **Descriptors are read exactly.** A text is read as a signature if and only if it is the
descriptor of that signature, no parameter of which is void, and which takes no variable argument
list. Signatures have the same descriptor if and only if they have the same parameter types and the
same result type, void parameters included. -/
theorem ofDescriptor?_exact :
    (∀ (d : Text) (s : Signature), ofDescriptor? d = some s ↔
      s.varArgs = false ∧ .void ∉ s.params ∧ s.descriptor = d) ∧
    ∀ s s' : Signature, s.descriptor = s'.descriptor ↔
      s.params = s'.params ∧ s.result = s'.result := by
  refine ⟨fun d s => ⟨descriptor_of_ofDescriptor?, ?_⟩, fun s s' => descriptor_eq_descriptor_iff⟩
  rintro ⟨hvarArgs, hvoid, rfl⟩
  rw [ofDescriptor?_descriptor hvoid, ← hvarArgs]

end Signature

end Bytecode
