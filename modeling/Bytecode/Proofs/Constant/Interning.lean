import Mathlib
import Bytecode.Proofs.Constant.Pool
import Bytecode.Proofs.Constant.Taking

/-!
# Interning constants

A pool compares constants by their encodings, and the index that it keeps is one of encodings. For
constants whose lengths and counts fit in four bytes that is as good as comparing the constants
themselves: no two of them have the same encoding, whatever their types and however they nest. So
over any run each constant has one index, and different constants have different ones.

## Main definitions

* `Pool.Holds`: a constant with the same encoding is in the pool
* `Pool.Faithful`: a pool without repetition whose index finds all constants
* `Pool.internAll`: constants interned one after the other, refused or not
* `Pool.stage`, `Pool.Gets`: the pool before each constant of a run, and the index that it gets

## Main results

* `Pool.succeeds_intern_iff`: which constants a pool takes
* `Pool.Faithful.intern`, `Pool.Faithful.internAll`: interning keeps a pool faithful
* `Pool.intern_identifies`: over a run, an index stands for one constant
-/

namespace Bytecode

/-- Constants that fit have the same encoding only if they are the same. -/
theorem Constant.encode_inj {c d : Constant} (hc : c.Fits) (hd : d.Fits) :
    c.encode = d.encode ↔ c = d := by
  refine ⟨fun h => ?_, congrArg encode⟩
  have hsame : c.encode ++ [] = d.encode ++ [] := by rw [h]
  exact (eq_of_encode_append hc hd hsame).1

namespace Pool

variable {p q : Pool} {c d : Constant} {i j : Nat} {e : Error} {constants : List Constant}

/-! ## Which constants a pool takes -/

/-- A constant with the same encoding is in the pool. -/
def Holds (p : Pool) (c : Constant) : Prop := ∃ entry ∈ p.entries, entry.encode = c.encode

/-- Every constant of the pool can be found under its encoding. -/
def Indexed (p : Pool) : Prop := ∀ c ∈ p.entries, ∃ i, p.index[c.encode]? = some i

theorem Indexed.empty (owner : Text) : (Pool.empty owner).Indexed := by
  intro c hc
  cases hc

theorem Indexed.intern (hp : p.Indexed) (h : p.intern c = .ok (i, q)) : q.Indexed := by
  rcases intern_cases h with ⟨-, rfl⟩ | ⟨-, -, -, hentries, hindex, -⟩
  · exact hp
  · intro d hd
    rw [hindex, Std.TreeMap.getElem?_insert]
    split
    · exact ⟨_, rfl⟩
    · next hne =>
      rw [hentries] at hd
      rcases List.mem_append.mp hd with hd | hd
      · exact hp d hd
      · rw [List.mem_singleton.mp hd] at hne
        exact absurd Std.ReflCmp.compare_self hne

/-- A constant is held when it can be found. -/
theorem holds_iff (hp : p.Sound) (hindexed : p.Indexed) :
    p.Holds c ↔ ∃ i, p.index[c.encode]? = some i := by
  constructor
  · rintro ⟨entry, hentry, hencode⟩
    rw [← hencode]
    exact hindexed entry hentry
  · rintro ⟨i, hi⟩
    obtain ⟨entry, hentry, hencode⟩ := hp.found _ i hi
    exact ⟨entry, List.mem_of_getElem? hentry, hencode⟩

/-- **Which constants a pool takes**: of those that are encoded, the ones that it holds, and others
while there is room. -/
theorem succeeds_intern_iff (hp : p.Sound) (hindexed : p.Indexed) :
    Succeeds (p.intern c) ↔ c.Countable ∧ (p.Holds c ∨ p.size < 65535) := by
  by_cases hcountable : c.Countable
  swap
  · refine iff_of_false ?_ fun h => hcountable h.1
    rintro ⟨⟨i, q⟩, h⟩
    exact hcountable (countable_of_intern h)
  rw [and_iff_right hcountable, holds_iff hp hindexed, intern_of_countable hcountable]
  unfold internAs
  cases hfound : p.index[c.encode]? with
  | some i => exact iff_of_true ⟨_, rfl⟩ (.inl ⟨i, rfl⟩)
  | none =>
    by_cases hroom : Wire.maxName ≤ p.size
    · have hfull : ¬ p.size < 65535 := Nat.not_lt.mpr hroom
      simp [Succeeds, hroom, hfull]
    · have hlt : p.size < 65535 := Nat.not_le.mp hroom
      exact iff_of_true ⟨_, if_neg hroom⟩ (.inr hlt)

/-- A pool takes a constant without growing exactly when it holds it. -/
theorem entries_eq_iff_holds (hp : p.Sound) (hindexed : p.Indexed) (h : p.intern c = .ok (i, q)) :
    q.entries = p.entries ↔ p.Holds c := by
  rw [holds_iff hp hindexed]
  cases hfound : p.index[c.encode]? with
  | some j =>
    have hsame : p.intern c = .ok (j, p) := by
      rw [intern_of_countable (countable_of_intern h)]
      simp only [internAs, hfound]
    rw [hsame] at h
    cases h
    exact iff_of_true rfl ⟨_, rfl⟩
  | none =>
    rcases intern_cases h with ⟨hsome, -⟩ | ⟨-, -, -, hentries, -, -⟩
    · rw [hfound] at hsome
      cases hsome
    · exact iff_of_false (by simp [hentries]) (by simp)

/-- A pool refuses a constant that is not encoded, and one for which there is no room. -/
theorem error_of_intern (h : p.intern c = .error e) :
    (¬ c.Countable ∧ e = .inconsistent .constantSize) ∨
      (c.Countable ∧ e = .unsupported p.owner .constants) := by
  rcases error_of_except_bind h with h | ⟨key, hkey, h⟩
  · refine .inl ⟨?_, Constant.error_of_encoded h⟩
    rw [← Constant.succeeds_encoded]
    exact exists_error_iff.mp ⟨e, h⟩
  · refine .inr ⟨(Constant.encoded_eq_ok hkey).1, ?_⟩
    unfold internAs at h
    split at h
    · cases h
    · split at h
      · exact (Except.error.inj h).symm
      · cases h

theorem owner_of_intern (h : p.intern c = .ok (i, q)) : q.owner = p.owner := by
  rw [intern_of_countable (countable_of_intern h)] at h
  unfold internAs at h
  split at h
  · cases h
    rfl
  · split at h
    · cases h
    · cases h
      rfl

/-! ## One step of a run -/

/-- A pool without repetition whose index finds all constants. -/
structure Faithful (p : Pool) : Prop where
  sound : p.Sound
  indexed : p.Indexed
  distinct : (p.entries.map Constant.encode).Nodup

theorem Faithful.empty (owner : Text) : (Pool.empty owner).Faithful where
  sound := .empty owner
  indexed := .empty owner
  distinct := List.nodup_nil

/-- Only a constant that the pool does not hold is added to it. -/
theorem Faithful.intern (hp : p.Faithful) (h : p.intern c = .ok (i, q)) : q.Faithful := by
  refine ⟨(hp.sound.intern h).1, hp.indexed.intern h, ?_⟩
  have hholds := entries_eq_iff_holds hp.sound hp.indexed h
  rcases intern_cases h with ⟨-, rfl⟩ | ⟨-, -, -, hentries, -, -⟩
  · exact hp.distinct
  · have hnew : ¬ p.Holds c := by
      rw [← hholds, hentries]
      simp
    rw [hentries, List.map_append, List.map_singleton]
    refine List.nodup_append_comm.mp (List.nodup_cons.mpr ⟨fun hmem => ?_, hp.distinct⟩)
    exact hnew (List.mem_map.mp hmem)

/-- Of the constants that are encoded, a pool refuses one exactly when it is full and does not hold
it. -/
theorem Faithful.intern_eq_error_iff (hp : p.Faithful) (hc : c.Countable) :
    p.intern c = .error e ↔
      e = .unsupported p.owner .constants ∧ ¬ p.Holds c ∧ p.entries.length = 65535 := by
  have hsize := hp.sound.size_le
  have hsucceeds : Succeeds (p.intern c) ↔ _ := succeeds_intern_iff hp.sound hp.indexed
  have herror : ∀ {e}, p.intern c = .error e → e = .unsupported p.owner .constants := fun h =>
    (error_of_intern h).elim (fun h => absurd hc h.1) And.right
  rw [and_iff_right hc] at hsucceeds
  rw [length_entries]
  constructor
  · intro h
    have hfails : ¬ Succeeds (p.intern c) := exists_error_iff.mp ⟨e, h⟩
    rw [hsucceeds, not_or] at hfails
    exact ⟨herror h, hfails.1, by omega⟩
  · rintro ⟨rfl, hnew, hfull⟩
    have hfails : ¬ Succeeds (p.intern c) := by
      rw [hsucceeds, not_or]
      exact ⟨hnew, by omega⟩
    obtain ⟨e, he⟩ := exists_error_iff.mpr hfails
    rw [he, herror he]

/-- The pool after a constant was interned. One that is refused leaves the pool as it is. -/
def interned (p : Pool) (c : Constant) : Pool :=
  match p.intern c with
  | .ok (_, q) => q
  | .error _ => p

theorem interned_of_ok (h : p.intern c = .ok (i, q)) : p.interned c = q := by
  rw [interned, h]

theorem interned_of_error (h : p.intern c = .error e) : p.interned c = p := by
  rw [interned, h]

/-- What interning a constant can do to a pool. -/
theorem interned_cases (p : Pool) (c : Constant) :
    (∃ i, p.intern c = .ok (i, p.interned c)) ∨ p.interned c = p := by
  cases h : p.intern c with
  | ok x =>
    obtain ⟨i, q⟩ := x
    exact .inl ⟨i, by rw [interned_of_ok h]⟩
  | error e => exact .inr (interned_of_error h)

theorem Faithful.interned (hp : p.Faithful) (c : Constant) : (p.interned c).Faithful := by
  rcases p.interned_cases c with ⟨i, h⟩ | h
  · exact hp.intern h
  · rwa [h]

theorem owner_interned (p : Pool) (c : Constant) : (p.interned c).owner = p.owner := by
  rcases p.interned_cases c with ⟨i, h⟩ | h
  · exact owner_of_intern h
  · rw [h]

theorem entries_prefix_interned (p : Pool) (c : Constant) :
    p.entries <+: (p.interned c).entries := by
  rcases p.interned_cases c with ⟨i, h⟩ | h
  · exact entries_prefix_of_intern h
  · rw [h]

theorem mem_interned (h : d ∈ (p.interned c).entries) : d ∈ p.entries ∨ d = c := by
  rcases p.interned_cases c with ⟨i, hintern⟩ | hsame
  · rcases intern_cases hintern with ⟨-, hsame⟩ | ⟨-, -, -, hentries, -, -⟩
    · rw [hsame] at h
      exact .inl h
    · rw [hentries] at h
      simpa using h
  · rw [hsame] at h
    exact .inl h

/-! ## Runs -/

/-- The pool after constants were interned one after the other. -/
def internAll (p : Pool) (constants : List Constant) : Pool := constants.foldl interned p

theorem Faithful.internAll (hp : p.Faithful) (constants : List Constant) :
    (p.internAll constants).Faithful := by
  induction constants generalizing p with
  | nil => exact hp
  | cons c constants ih => exact ih (hp.interned c)

theorem owner_internAll (p : Pool) (constants : List Constant) :
    (p.internAll constants).owner = p.owner := by
  induction constants generalizing p with
  | nil => rfl
  | cons c constants ih => exact (ih (p.interned c)).trans (p.owner_interned c)

/-- A run keeps the constants that are there, each at its index. -/
theorem entries_prefix_internAll (p : Pool) (constants : List Constant) :
    p.entries <+: (p.internAll constants).entries := by
  induction constants generalizing p with
  | nil => exact List.prefix_rfl
  | cons c constants ih => exact (p.entries_prefix_interned c).trans (ih (p.interned c))

/-- A run adds no other constants than those that are interned. -/
theorem mem_internAll (h : d ∈ (p.internAll constants).entries) :
    d ∈ p.entries ∨ d ∈ constants := by
  induction constants generalizing p with
  | nil => exact .inl h
  | cons c constants ih =>
    rcases ih h with hd | hd
    · rcases mem_interned hd with hd | rfl
      · exact .inl hd
      · exact .inr List.mem_cons_self
    · exact .inr (List.mem_cons_of_mem c hd)

variable {owner : Text} {m n : Nat}

/-- The pool of a run before its `n`-th constant is interned. -/
def stage (owner : Text) (constants : List Constant) (n : Nat) : Pool :=
  (Pool.empty owner).internAll (constants.take n)

/-- The `n`-th constant of a run is `c`, and `i` is the index that it gets. -/
def Gets (owner : Text) (constants : List Constant) (n : Nat) (c : Constant) (i : Nat) : Prop :=
  constants[n]? = some c ∧ ∃ q, (stage owner constants n).intern c = .ok (i, q)

theorem faithful_stage (owner : Text) (constants : List Constant) (n : Nat) :
    (stage owner constants n).Faithful := (Faithful.empty owner).internAll _

theorem stage_succ (h : constants[n]? = some c) :
    stage owner constants (n + 1) = (stage owner constants n).interned c := by
  rw [stage, List.take_add_one, h, Option.toList_some, internAll, List.foldl_append]
  rfl

theorem entries_prefix_stage (h : m ≤ n) :
    (stage owner constants m).entries <+: (stage owner constants n).entries := by
  obtain ⟨k, rfl⟩ := Nat.exists_eq_add_of_le h
  rw [stage, stage, List.take_add, internAll, internAll, List.foldl_append]
  exact entries_prefix_internAll _ _

theorem fits_of_mem_stage (hfits : ∀ c ∈ constants, c.Fits)
    (h : d ∈ (stage owner constants n).entries) : d.Fits := by
  rcases mem_internAll h with hd | hd
  · cases hd
  · exact hfits d (List.mem_of_mem_take hd)

/-- Among constants that fit, to be held is to be one of the entries. -/
theorem holds_stage_iff (hfits : ∀ c ∈ constants, c.Fits) (hc : c.Fits) :
    (stage owner constants n).Holds c ↔ c ∈ (stage owner constants n).entries := by
  constructor
  · rintro ⟨entry, hentry, hencode⟩
    obtain rfl := (Constant.encode_inj (fits_of_mem_stage hfits hentry) hc).mp hencode
    exact hentry
  · exact fun h => ⟨c, h, rfl⟩

/-- The index that a constant gets leads to it from then on. -/
theorem Gets.getElem? (hfits : ∀ c ∈ constants, c.Fits) (h : Gets owner constants n c i)
    (hmn : n < m) : (stage owner constants m).entries[i]? = some c := by
  obtain ⟨hc, q, hintern⟩ := h
  obtain ⟨-, entry, hentry, hencode⟩ := (faithful_stage owner constants n).sound.intern hintern
  have hq : stage owner constants (n + 1) = q := by rw [stage_succ hc, interned_of_ok hintern]
  -- the entry has the encoding of the constant, so it is the constant
  have hfit : entry.Fits := fits_of_mem_stage hfits (hq ▸ List.mem_of_getElem? hentry)
  have hsame := (Constant.encode_inj hfit (hfits c (List.mem_of_getElem? hc))).mp hencode
  rw [← hq, hsame] at hentry
  exact getElem?_of_prefix (entries_prefix_stage hmn) hentry

/-- **Over a run, an index stands for one constant.** Constants are interned in a new pool one after
the other, and some may be refused. At every stage the entries are all different and at most 65535,
and they keep their indices. A constant that is taken is the entry at the index that it gets, and
two constants get the same index if and only if they are the same. A constant is refused if and only
if it is not there and the pool has 65535 entries, and then the pool stays as it is. -/
theorem intern_identifies (owner : Text) (constants : List Constant)
    (hfits : ∀ c ∈ constants, c.Fits) :
    (∀ n, (stage owner constants n).entries.Nodup ∧
      (stage owner constants n).entries.length ≤ 65535) ∧
    (∀ m n, m ≤ n → (stage owner constants m).entries <+: (stage owner constants n).entries) ∧
    (∀ n c i, Gets owner constants n c i →
      (stage owner constants (n + 1)).entries[i]? = some c) ∧
    (∀ m n c d i j, Gets owner constants m c i → Gets owner constants n d j → (i = j ↔ c = d)) ∧
    ∀ n c, constants[n]? = some c →
      (∀ e, (stage owner constants n).intern c = .error e ↔
        e = .unsupported owner .constants ∧ c ∉ (stage owner constants n).entries ∧
          (stage owner constants n).entries.length = 65535) ∧
      ∀ e, (stage owner constants n).intern c = .error e →
        stage owner constants (n + 1) = stage owner constants n := by
  have hnodup : ∀ n, (stage owner constants n).entries.Nodup := fun n =>
    (faithful_stage owner constants n).distinct.of_map
  refine ⟨fun n => ⟨hnodup n, ?_⟩, fun m n => entries_prefix_stage,
    fun n c i h => h.getElem? hfits (Nat.lt_succ_self n), ?_, ?_⟩
  · rw [length_entries]
    exact (faithful_stage owner constants n).sound.size_le
  · intro m n c d i j hc hd
    -- both are looked at in the pool after the later one
    have hi := hc.getElem? hfits (Nat.lt_succ_of_le (le_max_left m n))
    have hj := hd.getElem? hfits (Nat.lt_succ_of_le (le_max_right m n))
    exact index_eq_iff_of_nodup (hnodup _) hi hj
  · intro n c hc
    have howner : (stage owner constants n).owner = owner := owner_internAll _ _
    refine ⟨fun e => ?_, fun e he => by rw [stage_succ hc, interned_of_error he]⟩
    have hfit := hfits c (List.mem_of_getElem? hc)
    rw [(faithful_stage owner constants n).intern_eq_error_iff hfit.countable, howner,
      holds_stage_iff hfits hfit]

/-- The two zeros are different constants, a string within an array is another constant than the
string, and the string that comes again gets its index again. -/
theorem intern_identifies_zeros :
    let zero : Constant := .numbers [⟨0⟩]
    let minusZero : Constant := .numbers [⟨0x8000000000000000⟩]
    let constants := [zero, .string [97], minusZero, .objects [.string [97]], .string [97]]
    (∀ c ∈ constants, c.Fits) ∧ Gets [] constants 0 zero 0 ∧ Gets [] constants 2 minusZero 2 ∧
      zero ≠ minusZero ∧ Gets [] constants 1 (.string [97]) 1 ∧
      Gets [] constants 4 (.string [97]) 1 ∧
      (stage [] constants 5).entries[1]? = some (.string [97]) := by
  intro zero minusZero constants
  have hfits : ∀ c ∈ constants, c.Fits := by
    refine List.forall_mem_cons.mpr ⟨.numbers (by decide), ?_⟩
    refine List.forall_mem_cons.mpr ⟨.string (by decide), ?_⟩
    refine List.forall_mem_cons.mpr ⟨.numbers (by decide), ?_⟩
    refine List.forall_mem_cons.mpr ⟨.objects (by decide) ?_, ?_⟩
    · exact List.forall_mem_singleton.mpr (.string (by decide))
    · exact List.forall_mem_singleton.mpr (.string (by decide))
  have hzero : Gets [] constants 0 zero 0 := ⟨rfl, _, rfl⟩
  have hminus : Gets [] constants 2 minusZero 2 := ⟨rfl, _, rfl⟩
  have hfirst : Gets [] constants 1 (.string [97]) 1 := ⟨rfl, _, rfl⟩
  have hagain : Gets [] constants 4 (.string [97]) 1 := ⟨rfl, _, rfl⟩
  obtain ⟨-, -, hentry, hsame, -⟩ := intern_identifies [] constants hfits
  have hne : zero ≠ minusZero := (hsame 0 2 _ _ 0 2 hzero hminus).not.mp (by decide)
  exact ⟨hfits, hzero, hminus, hne, hfirst, hagain, hentry 4 _ 1 hagain⟩

end Pool

end Bytecode
