import Mathlib
import Bytecode.Proofs.Assembly.Renumbering

/-!
# Room in a symbol table

A symbol table keeps each text once, and its index finds every one of them. Requests keep it so,
whichever way they end: one that names a member interns its text, and others leave the table alone.
Whether there is room for a text depends on the texts in the table only, not on their order.

## Main definitions

* `SymbolTable.Faithful`: every entry is found under its index

## Main results

* `SymbolTable.Faithful.nodup`: no text is there twice
* `SymbolTable.Faithful.succeeds_intern`: a text of a larger table finds a place
* `Emit.ends_request_yields`: a request looks up one member at most
-/

namespace Bytecode

namespace SymbolTable

variable {s t : SymbolTable} {text : Text} {i : UInt16} {member? : Option Text}

/-- Every entry is found under its index, and none is too long. -/
structure Faithful (s : SymbolTable) : Prop where
  sound : s.Sound
  indexed : ∀ (i : Nat) text, s.entries[i]? = some text → s.index[text]? = some i.toUInt16
  short : ∀ text ∈ s.entries, text.length ≤ 65535

theorem Faithful.empty (owner : Text) : (SymbolTable.empty owner).Faithful where
  sound := .empty owner
  indexed i text h := by simp [SymbolTable.empty, entries] at h
  short text h := by simp [SymbolTable.empty, entries] at h

/-- A text that is not found is not there. -/
theorem Faithful.notMem (hs : s.Faithful) (hnew : s.index[text]? = none) : text ∉ s.entries := by
  intro hmem
  obtain ⟨i, hi⟩ := List.mem_iff_getElem?.mp hmem
  rw [hs.indexed i text hi] at hnew
  cases hnew

theorem Faithful.nodup (hs : s.Faithful) : s.entries.Nodup := by
  refine List.nodup_iff_getElem?_ne_getElem?.mpr fun i j hij hj heq => ?_
  have hlt : ∀ k, k < s.entries.length → k.toUInt16.toNat = k := by
    intro k hk
    rw [length_entries] at hk
    rw [Nat.toUInt16_eq, UInt16.toNat_ofNat_of_lt']
    exact Nat.lt_succ_of_lt (hk.trans_le hs.sound.size_le)
  -- both places would have to be the index of the same text
  have htext := List.getElem?_eq_getElem (hij.trans hj)
  have hi := hs.indexed i _ htext
  have hj' := hs.indexed j _ (heq ▸ htext)
  have hsame := congrArg UInt16.toNat (Option.some.inj (hi.symm.trans hj'))
  rw [hlt i (hij.trans hj), hlt j hj] at hsame
  exact hij.ne hsame

/-- What interning adds to a table: the text, unless it is there. -/
theorem Faithful.intern (hs : s.Faithful) (h : s.intern text = .ok (i, t)) :
    t.Faithful ∧ ∀ x, x ∈ t.entries ↔ x ∈ s.entries ∨ text = x := by
  obtain ⟨hsound, hentry, hgrown⟩ := hs.sound.intern h
  unfold SymbolTable.intern at h
  split at h
  · next found hfound =>
    cases h
    refine ⟨hs, fun x => ⟨.inl, ?_⟩⟩
    rintro (hx | rfl)
    · exact hx
    · exact List.mem_of_getElem? hentry
  · next hnew =>
    obtain ⟨_, hname, h⟩ := exists_of_except_bind h
    split at h
    · cases h
    · cases h
      have hentries : ∀ x, x ∈ (text :: s.newest).reverse ↔ x ∈ s.entries ∨ text = x := by
        intro x
        simp [entries, or_comm, eq_comm]
      refine ⟨⟨hsound, fun k x hk => ?_, fun x hx => ?_⟩, hentries⟩
      · have hother : (s.entries ++ [text])[k]? = some x := by simpa [entries] using hk
        rw [Std.TreeMap.getElem?_insert]
        rcases Nat.lt_or_ge k s.entries.length with hlt | hge
        · -- an old entry, which is not the new text
          rw [List.getElem?_append_left hlt] at hother
          have hne : text ≠ x := fun heq =>
            hs.notMem hnew (heq ▸ List.mem_of_getElem? hother)
          rw [if_neg (by simpa using hne)]
          exact hs.indexed k x hother
        · -- the new text comes last
          rw [List.getElem?_append_right hge, List.getElem?_singleton] at hother
          split at hother
          · next hlast =>
            cases hother
            have hsize : k = s.size := by
              rw [← length_entries]
              omega
            simp [hsize]
          · cases hother
      · rcases (hentries x).mp hx with hold | rfl
        · exact hs.short x hold
        · exact Wire.length_le_of_requireName hname

/-- **A text finds a place** in a table when there is one for it in a table with more entries. -/
theorem Faithful.succeeds_intern (hs : s.Faithful) (ht : t.Faithful)
    (hsub : s.entries ⊆ t.entries) (htext : text ∈ t.entries) : Succeeds (s.intern text) := by
  unfold SymbolTable.intern
  cases hfound : s.index[text]? with
  | some i => exact ⟨_, rfl⟩
  | none =>
    have hshort : ¬ Wire.maxName < text.length := Nat.not_lt.mpr (ht.short text htext)
    have hname : Wire.requireName text s.owner = .ok () := by rw [Wire.requireName, if_neg hshort]
    -- the entries and the text are all different, and all of them are in the larger table
    have hdistinct : (text :: s.entries).Nodup := List.nodup_cons.mpr ⟨hs.notMem hfound, hs.nodup⟩
    have hall : text :: s.entries ⊆ t.entries := List.cons_subset.mpr ⟨htext, hsub⟩
    have hcount := (hdistinct.subperm hall).length_le
    rw [List.length_cons, length_entries, length_entries] at hcount
    have hroom : ¬ Wire.maxName ≤ s.size := by
      have := ht.sound.size_le
      unfold Wire.maxName
      omega
    simp only [hname, hroom]
    exact ⟨_, rfl⟩

theorem Yields.faithful (h : s.Yields member? i t) (hs : s.Faithful) : t.Faithful := by
  rcases h with ⟨-, rfl⟩ | ⟨text, -, hintern⟩
  · exact hs
  · exact (hs.intern hintern).1

theorem Yields.mem_entries (h : s.Yields member? i t) (hs : s.Faithful) (x : Text) :
    x ∈ t.entries ↔ x ∈ s.entries ∨ member? = some x := by
  rcases h with ⟨rfl, rfl⟩ | ⟨text, rfl, hintern⟩
  · simp
  · rw [(hs.intern hintern).2 x, Option.some.injEq]

end SymbolTable

/-- A request looks up one member at most, whichever way it ends. -/
theorem Emit.ends_request_yields (r : Request) {s : Assembly}
    (hclean : .void ∉ s.assembler.stack.types) :
    Ends (Emit.request r) s (fun _ t => ∃ member? symbol, s.symbols.Yields member? symbol t.symbols)
      fun _ t => ∃ member? symbol, s.symbols.Yields member? symbol t.symbols := by
  have hsame : ∃ member? symbol, s.symbols.Yields member? symbol s.symbols :=
    ⟨none, 0, .inl ⟨rfl, rfl⟩⟩
  cases r with
  | openCode | close | newLabel => exact hsame
  | defineLocal type => exact Ends.map (ends_defineLocal (fun _ => hsame) fun _ _ => hsame)
  | bind label =>
    refine ends_bind.mono ?_ ?_
    · rintro - t ⟨l, stack, hbound⟩
      rw [hbound.eq]
      exact hsame
    · rintro - t rfl
      exact hsame
  | emission e =>
    refine (ends_emission hclean).mono ?_ fun _ t he => ?_
    · rintro - t ⟨symbol, stack, he⟩
      exact ⟨e.member?, symbol, he.interned⟩
    · cases he with
      | taken => exact hsame
      | written _ _ _ hsymbol => exact ⟨_, _, .inr ⟨_, rfl, hsymbol⟩⟩

theorem Assembly.Reaches.faithful {s t : Assembly} (h : s.Reaches t) (hs : s.Linked)
    (hfaithful : s.symbols.Faithful) : t.symbols.Faithful := by
  induction h with
  | refl => exact hfaithful
  | tail hreaches hstep ih =>
    obtain ⟨r, rfl⟩ := hstep
    have hlinked := (Assembly.Reaches.evolves hreaches hs).linked
    obtain ⟨_, _, hyields⟩ := (Emit.ends_request_yields r hlinked.wellFormed.noVoid).leaves
    exact hyields.faithful ih

end Bytecode
