import Mathlib
import Bytecode.Proofs.Constant.RoundTrip
import Bytecode.Proofs.Outcome

/-!
# Which constants are encoded

The counts of a constant are checked before it is encoded, at any depth, and a count that does not
fit in four bytes is refused. The lengths of its texts are not checked. So the constants that are
encoded are those whose counts fit, and the ones among them that are read back are those whose texts
fit, too.

## Main definitions

* `Constant.counts`, `Constant.texts`: the counts and the texts in a constant, at any depth
* `Constant.Countable`: every count fits in four bytes
* `Constant.TextsFit`: the length of every text fits in four bytes

## Main results

* `Constant.succeeds_encoded`: which constants are encoded
* `Constant.fits_iff`: which of them fit, so that they are read back
-/

namespace Bytecode

namespace Constant

variable {c : Constant}

/-- A constant is either flat or made of constants. -/
theorem induct {motive : Constant → Prop} (string : ∀ value, motive (.string value))
    (map : ∀ keys, motive (.map keys)) (ints : ∀ values, motive (.ints values))
    (longs : ∀ values, motive (.longs values)) (numbers : ∀ values, motive (.numbers values))
    (objects : ∀ elements, (∀ c ∈ elements, motive c) → motive (.objects elements))
    (c : Constant) : motive c :=
  @Constant.rec motive (fun elements => ∀ c ∈ elements, motive c) string map ints longs numbers
    objects (fun _ hc => absurd hc List.not_mem_nil)
    (fun _ _ hc hrest => List.forall_mem_cons.mpr ⟨hc, hrest⟩) c

mutual

/-- The counts in a constant, at any depth. -/
def counts : Constant → List Nat
  | string _ => []
  | map keys => [keys.length]
  | ints values => [values.length]
  | longs values => [values.length]
  | numbers values => [values.length]
  | objects elements => elements.length :: countsAll elements

/-- The counts in constants. -/
def countsAll : List Constant → List Nat
  | [] => []
  | c :: rest => counts c ++ countsAll rest

end

mutual

/-- The texts in a constant, at any depth. -/
def texts : Constant → List Text
  | string value => [value]
  | map keys => keys
  | ints _ => []
  | longs _ => []
  | numbers _ => []
  | objects elements => textsAll elements

/-- The texts in constants. -/
def textsAll : List Constant → List Text
  | [] => []
  | c :: rest => texts c ++ textsAll rest

end

/-- Every count in a constant fits in four bytes. -/
def Countable (c : Constant) : Prop := ∀ n ∈ c.counts, n < 4294967296

/-- The length of every text in a constant fits in four bytes. -/
def TextsFit (c : Constant) : Prop := ∀ t ∈ c.texts, t.length < 4294967296

instance (c : Constant) : Decidable c.Countable :=
  inferInstanceAs (Decidable (∀ n ∈ c.counts, n < 4294967296))

instance (c : Constant) : Decidable c.TextsFit :=
  inferInstanceAs (Decidable (∀ t ∈ c.texts, t.length < 4294967296))

theorem mem_countsAll {elements : List Constant} {n : Nat} :
    n ∈ countsAll elements ↔ ∃ c ∈ elements, n ∈ c.counts := by
  induction elements with
  | nil => simp [countsAll]
  | cons c rest ih => simp [countsAll, ih]

theorem mem_textsAll {elements : List Constant} {t : Text} :
    t ∈ textsAll elements ↔ ∃ c ∈ elements, t ∈ c.texts := by
  induction elements with
  | nil => simp [textsAll]
  | cons c rest ih => simp [textsAll, ih]

/-- An array of objects is countable when it is itself and all its elements are. -/
theorem countable_objects_iff {elements : List Constant} :
    (objects elements).Countable ↔
      elements.length < 4294967296 ∧ ∀ c ∈ elements, c.Countable := by
  simp only [Countable, counts, List.forall_mem_cons, mem_countsAll]
  exact and_congr_right fun _ =>
    ⟨fun h c hc n hn => h n ⟨c, hc, hn⟩, fun h n ⟨c, hc, hn⟩ => h c hc n hn⟩

theorem textsFit_objects_iff {elements : List Constant} :
    (objects elements).TextsFit ↔ ∀ c ∈ elements, c.TextsFit := by
  simp only [TextsFit, texts, mem_textsAll]
  exact ⟨fun h c hc t ht => h t ⟨c, hc, ht⟩, fun h t ⟨c, hc, ht⟩ => h c hc t ht⟩

/-! ### What is encoded -/

theorem succeeds_requireCount {n : Nat} : Succeeds (requireCount n) ↔ n < 4294967296 := by
  unfold requireCount Succeeds
  split <;> simp <;> omega

theorem error_of_requireCount {n : Nat} {e : Error} (h : requireCount n = .error e) :
    e = .inconsistent .constantSize := by
  unfold requireCount at h
  split at h
  · exact (Except.error.inj h).symm
  · cases h

theorem succeeds_requireAllCounts {elements : List Constant} :
    Succeeds (requireAllCounts elements) ↔ ∀ c ∈ elements, Succeeds c.requireCounts := by
  induction elements with
  | nil => exact iff_of_true ⟨(), rfl⟩ fun _ hc => absurd hc List.not_mem_nil
  | cons c rest ih =>
    rw [List.forall_mem_cons, ← ih]
    exact succeeds_bind fun _ => Iff.rfl

theorem error_of_requireAllCounts {elements : List Constant} {e : Error}
    (h : requireAllCounts elements = .error e) : ∃ c ∈ elements, c.requireCounts = .error e := by
  induction elements with
  | nil => cases h
  | cons c rest ih =>
    rcases error_of_except_bind h with h | ⟨_, -, h⟩
    · exact ⟨c, List.mem_cons_self, h⟩
    · obtain ⟨d, hd, hfails⟩ := ih h
      exact ⟨d, List.mem_cons_of_mem c hd, hfails⟩

theorem succeeds_requireCounts : Succeeds c.requireCounts ↔ c.Countable := by
  induction c using Constant.induct with
  | string value => simp [requireCounts, Countable, counts, Succeeds]
  | map keys => simp [requireCounts, Countable, counts, succeeds_requireCount]
  | ints values => simp [requireCounts, Countable, counts, succeeds_requireCount]
  | longs values => simp [requireCounts, Countable, counts, succeeds_requireCount]
  | numbers values => simp [requireCounts, Countable, counts, succeeds_requireCount]
  | objects elements ih =>
    rw [countable_objects_iff, ← succeeds_requireCount, ← forall₂_congr ih,
      ← succeeds_requireAllCounts]
    exact succeeds_bind fun _ => Iff.rfl

theorem error_of_requireCounts {e : Error} (h : c.requireCounts = .error e) :
    e = .inconsistent .constantSize := by
  induction c using Constant.induct with
  | string value => cases h
  | map keys => exact error_of_requireCount h
  | ints values => exact error_of_requireCount h
  | longs values => exact error_of_requireCount h
  | numbers values => exact error_of_requireCount h
  | objects elements ih =>
    rcases error_of_except_bind h with h | ⟨_, -, h⟩
    · exact error_of_requireCount h
    · obtain ⟨d, hd, hfails⟩ := error_of_requireAllCounts h
      exact ih d hd hfails

/-- **A constant is encoded exactly when its counts fit**, whatever its texts are. -/
theorem succeeds_encoded : Succeeds c.encoded ↔ c.Countable :=
  succeeds_bind_pure.trans succeeds_requireCounts

theorem encoded_eq_ok {bytes : Bytes} (h : c.encoded = .ok bytes) :
    c.Countable ∧ bytes = c.encode := by
  obtain ⟨_, hcounts, hbytes⟩ := exists_of_except_bind h
  cases hbytes
  exact ⟨succeeds_requireCounts.mp ⟨_, hcounts⟩, rfl⟩

theorem encoded_of_countable (h : c.Countable) : c.encoded = .ok c.encode := by
  obtain ⟨bytes, hbytes⟩ := succeeds_encoded.mpr h
  rw [hbytes, (encoded_eq_ok hbytes).2]

theorem error_of_encoded {e : Error} (h : c.encoded = .error e) :
    e = .inconsistent .constantSize := by
  rcases error_of_except_bind h with h | ⟨_, -, h⟩
  · exact error_of_requireCounts h
  · cases h

/-! ### What is read back -/

/-- A constant fits when its counts and its texts do. -/
theorem fits_iff : c.Fits ↔ c.Countable ∧ c.TextsFit := by
  constructor
  · intro h
    induction h with
    | string h => simpa [Countable, counts, TextsFit, texts] using h
    | map h hkeys => exact ⟨by simpa [Countable, counts] using h, hkeys⟩
    | ints h => simpa [Countable, counts, TextsFit, texts] using h
    | longs h => simpa [Countable, counts, TextsFit, texts] using h
    | numbers h => simpa [Countable, counts, TextsFit, texts] using h
    | objects h _ ih =>
      exact ⟨countable_objects_iff.mpr ⟨h, fun c hc => (ih c hc).1⟩,
        textsFit_objects_iff.mpr fun c hc => (ih c hc).2⟩
  · rintro ⟨hcounts, htexts⟩
    induction c using Constant.induct with
    | string value => exact .string (htexts value List.mem_cons_self)
    | map keys => exact .map (hcounts _ List.mem_cons_self) htexts
    | ints values => exact .ints (hcounts _ List.mem_cons_self)
    | longs values => exact .longs (hcounts _ List.mem_cons_self)
    | numbers values => exact .numbers (hcounts _ List.mem_cons_self)
    | objects elements ih =>
      obtain ⟨hlength, hcountable⟩ := countable_objects_iff.mp hcounts
      have hfit := textsFit_objects_iff.mp htexts
      exact .objects hlength fun c hc => ih c hc (hcountable c hc) (hfit c hc)

theorem Fits.countable (h : c.Fits) : c.Countable := (fits_iff.mp h).1

theorem Fits.textsFit (h : c.Fits) : c.TextsFit := (fits_iff.mp h).2

end Constant

end Bytecode
