import Mathlib
import Bytecode.Proofs.Unit.Moves

/-!
# Names of routines

A function gets a routine under its own name, or under that name with a number. The candidates are
tried in order without a bound of their own. Still the search ends: no two candidates are the same,
so that those which are taken are no more than the identities there are.

## Main definitions

* `UnitBuilder.Finds`: the search as it goes from one candidate to the next

## Main results

* `UnitBuilder.le_size_of_taken`: how many candidates can be taken
* `UnitBuilder.exists_uniqueName`: a free name among the candidates, and the first one
* `UnitBuilder.uniqueName_eq_iff`: when a routine is called like its function
* `UnitBuilder.uniqueName_first`: the search ends with the first free name, and with no other
-/

namespace Bytecode

/-- Two numbers with the same numeral are the same. -/
theorem Text.ofNat_injective {m n : Nat} (h : Text.ofNat m = Text.ofNat n) : m = n := by
  -- a digit is read back from its byte, and a number from its digits
  have hdigits : ∀ k, (Text.ofNat k).map (fun b => Char.ofNat b.toNat) = Nat.toDigits 10 k := by
    intro k
    rw [Text.ofNat, List.map_map]
    refine (List.map_congr_left fun c hc => ?_).trans (List.map_id _)
    have hdigit : c.isDigit = true := Nat.isDigit_of_mem_toDigits (by decide) (by decide) hc
    have hlt : c.toNat < 256 := by
      simp only [Char.isDigit, Bool.and_eq_true, decide_eq_true_eq] at hdigit
      have hle : c.toNat ≤ 57 := hdigit.2
      omega
    have hbyte : c.toNat.toUInt8.toNat = c.toNat := Nat.mod_eq_of_lt hlt
    simp only [Function.comp_apply, hbyte, id_eq]
    exact Char.ofNat_toNat c
  have hchars : Nat.toDigits 10 m = Nat.toDigits 10 n := by rw [← hdigits m, h, hdigits n]
  rw [← Nat.ofDigitChars_toDigits (b := 10) (n := m) (by decide) (by decide), hchars,
    Nat.ofDigitChars_toDigits (by decide) (by decide)]

namespace UnitBuilder

/-- No two candidates for a name are the same. -/
theorem candidate_injective {base : Text} {m n : Nat} (h : candidate base m = candidate base n) :
    m = n := by
  have hlonger : ∀ k, candidate base (k + 1) ≠ base := by
    intro k heq
    have hlength := congrArg List.length heq
    have hmark : Text.ofString "$" = [36] := by decide
    simp [candidate, hmark] at hlength
  cases m with
  | zero =>
    cases n with
    | zero => rfl
    | succ n => exact absurd h.symm (hlonger n)
  | succ m =>
    cases n with
    | zero => exact absurd h (hlonger m)
    | succ n => exact congrArg _ (Nat.succ.inj (Text.ofNat_injective (List.append_cancel_left h)))

/-- The name that is found is a candidate. All those before it are taken, and it is taken itself
only if the attempts have run out. -/
theorem exists_freeNameFrom (u : UnitBuilder) (base descriptor : Text) (fuel n : Nat) :
    ∃ k, n ≤ k ∧ u.freeNameFrom base descriptor fuel n = candidate base k ∧
      (∀ j, n ≤ j → j < k → candidate base j ++ descriptor ∈ u.identities) ∧
      (candidate base k ++ descriptor ∈ u.identities → k = n + fuel) := by
  induction fuel generalizing n with
  | zero => exact ⟨n, le_rfl, rfl, fun j hj hjn => absurd hjn (Nat.not_lt.mpr hj), fun _ => rfl⟩
  | succ fuel ih =>
    rw [freeNameFrom]
    split
    · next htaken =>
      obtain ⟨k, hnk, hname, hbefore, hlast⟩ := ih (n + 1)
      refine ⟨k, Nat.le_of_succ_le hnk, hname, fun j hj hjk => ?_, fun hk => ?_⟩
      · by_cases heq : j = n
        · subst heq
          exact Std.TreeSet.mem_iff_contains.mpr htaken
        · exact hbefore j (by omega) hjk
      · have := hlast hk
        omega
    · next hfree =>
      refine ⟨n, le_rfl, rfl, fun j hj hjn => absurd hjn (Nat.not_lt.mpr hj), fun hk => ?_⟩
      exact absurd (Std.TreeSet.mem_iff_contains.mp hk) hfree

/-- Candidates that are taken, one after the other from the first, are no more than the
identities. -/
theorem le_size_of_taken {u : UnitBuilder} {base descriptor : Text} {k : Nat}
    (htaken : ∀ j < k, candidate base j ++ descriptor ∈ u.identities) : k ≤ u.identities.size := by
  let tried := (List.range k).map fun j => candidate base j ++ descriptor
  have hsubset : tried ⊆ u.identities.toList := by
    intro x hx
    obtain ⟨j, hj, rfl⟩ := List.mem_map.mp hx
    rw [Std.TreeSet.mem_toList]
    exact htaken j (List.mem_range.mp hj)
  have hdistinct : tried.Nodup :=
    List.nodup_range.map fun i j h => candidate_injective (List.append_cancel_right h)
  have hle := (hdistinct.subperm hsubset).length_le
  rwa [List.length_map, List.length_range, Std.TreeSet.length_toList] at hle

/-- **A function finds a free name** among the candidates, and it is the first one. -/
theorem exists_uniqueName (u : UnitBuilder) (base descriptor : Text) :
    ∃ k, u.uniqueName base descriptor = candidate base k ∧
      candidate base k ++ descriptor ∉ u.identities ∧
      ∀ j < k, candidate base j ++ descriptor ∈ u.identities := by
  obtain ⟨k, -, hname, hbefore, hlast⟩ :=
    u.exists_freeNameFrom base descriptor u.identities.size 0
  have htaken : ∀ j < k, candidate base j ++ descriptor ∈ u.identities :=
    fun j hj => hbefore j (Nat.zero_le j) hj
  refine ⟨k, hname, fun hk => ?_, htaken⟩
  -- the attempts have run out, so there would be one more candidate taken than identities
  have hsize : k = u.identities.size := by
    have := hlast hk
    omega
  have hall : ∀ j < k + 1, candidate base j ++ descriptor ∈ u.identities := by
    intro j hj
    rcases Nat.lt_succ_iff_lt_or_eq.mp hj with hj | rfl
    · exact htaken j hj
    · exact hk
  have hmore := le_size_of_taken hall
  omega

/-- **A routine is called like its function** exactly if the identity is free. -/
theorem uniqueName_eq_iff (u : UnitBuilder) (base descriptor : Text) :
    u.uniqueName base descriptor = base ↔ base ++ descriptor ∉ u.identities := by
  obtain ⟨k, hname, hfree, htaken⟩ := u.exists_uniqueName base descriptor
  refine ⟨fun hbase => ?_, fun hbase => ?_⟩
  · rwa [← hname, hbase] at hfree
  · -- had the search gone on, the first candidate would be taken
    have hfirst : k = 0 := by
      by_contra hlater
      exact hbase (htaken 0 (Nat.pos_of_ne_zero hlater))
    rw [hname, hfirst, candidate]

/-! ### The search without a bound -/

/-- The search from the `n`-th candidate on, as it goes: a candidate that is free is the name, and
after one that is taken the next one is tried. -/
inductive Finds (u : UnitBuilder) (base descriptor : Text) : Nat → Text → Prop
  | free {n : Nat} (h : candidate base n ++ descriptor ∉ u.identities) :
      Finds u base descriptor n (candidate base n)
  | taken {n : Nat} {name : Text} (h : candidate base n ++ descriptor ∈ u.identities)
      (hnext : Finds u base descriptor (n + 1) name) : Finds u base descriptor n name

namespace Finds

variable {u : UnitBuilder} {base descriptor name name' : Text} {n k : Nat}

/-- The search goes past candidates that are taken. -/
theorem skip (h : Finds u base descriptor (n + k) name)
    (htaken : ∀ j, n ≤ j → j < n + k → candidate base j ++ descriptor ∈ u.identities) :
    Finds u base descriptor n name := by
  induction k with
  | zero => exact h
  | succ k ih =>
    have hlast : candidate base (n + k) ++ descriptor ∈ u.identities :=
      htaken (n + k) (Nat.le_add_right n k) (Nat.lt_succ_self _)
    exact ih (.taken hlast h) fun j hj hjk => htaken j hj (Nat.lt_succ_of_lt hjk)

/-- The search ends in one way only. -/
theorem unique (h : Finds u base descriptor n name) (h' : Finds u base descriptor n name') :
    name = name' := by
  induction h with
  | free hfree =>
    cases h' with
    | free => rfl
    | taken htaken => exact absurd htaken hfree
  | taken htaken _ ih =>
    cases h' with
    | free hfree => exact absurd htaken hfree
    | taken _ hnext => exact ih hnext

end Finds

/-- The search ends, with the name that is computed within a bound. -/
theorem finds_uniqueName (u : UnitBuilder) (base descriptor : Text) :
    u.Finds base descriptor 0 (u.uniqueName base descriptor) := by
  obtain ⟨k, hname, hfree, htaken⟩ := u.exists_uniqueName base descriptor
  rw [hname]
  have hfound : u.Finds base descriptor (0 + k) (candidate base k) := by
    rw [Nat.zero_add]
    exact .free hfree
  exact hfound.skip fun j _ hj => htaken j (by omega)

/-- **The search for a name ends with the first one that is free**, whatever the identities are. It
ends with this name and with no other. It is the wanted name itself if that is free. Otherwise a
number is put behind it, the least one from one on that makes it free, and this number is no larger
than the number of identities. -/
theorem uniqueName_first (u : UnitBuilder) (base descriptor : Text) :
    (∀ name, u.Finds base descriptor 0 name ↔ name = u.uniqueName base descriptor) ∧
      (base ++ descriptor ∉ u.identities → u.uniqueName base descriptor = base) ∧
      (base ++ descriptor ∈ u.identities → ∃ n, n ≤ u.identities.size ∧
        IsLeast {n | 1 ≤ n ∧ base ++ "$" ++ Text.ofNat n ++ descriptor ∉ u.identities} n ∧
        u.uniqueName base descriptor = base ++ "$" ++ Text.ofNat n) := by
  obtain ⟨k, hname, hfree, htaken⟩ := u.exists_uniqueName base descriptor
  have hsearch := u.finds_uniqueName base descriptor
  refine ⟨fun name => ⟨fun h => h.unique hsearch, ?_⟩, (u.uniqueName_eq_iff base descriptor).mpr,
    fun hbase => ?_⟩
  · rintro rfl
    exact hsearch
  · cases k with
    | zero => exact absurd hbase hfree
    | succ k =>
      refine ⟨k + 1, le_size_of_taken htaken, ⟨⟨Nat.le_add_left 1 k, hfree⟩, ?_⟩, hname⟩
      rintro j ⟨hpos, hj⟩
      by_contra hless
      obtain ⟨i, rfl⟩ := Nat.exists_eq_add_of_le' hpos
      exact hj (htaken (i + 1) (by omega))

end UnitBuilder

end Bytecode
