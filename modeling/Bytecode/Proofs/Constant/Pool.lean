import Mathlib
import Bytecode.Constant.Pool
import Bytecode.Proofs.Constant.Limits

/-!
# Pooled constants

A constant is pooled under its encoding, so its index leads to a constant with the same encoding,
not always to the one that was handed in. A pool only grows, and an index keeps its meaning. The
types whose accessors were asked for are among those that constants have.

## Main definitions

* `Pool.Sound`: every index leads to its encoding, within the limits of the format

## Main results

* `Pool.Sound.intern`: the index of a constant leads to its encoding
* `Pool.accessors_eq`: the accessors of a pool come in a fixed order
-/

namespace Bytecode

theorem Constant.isPoolable_type (c : Constant) : c.type.isPoolable = true := by
  cases c <;> rfl

namespace Pool

variable {p q : Pool} {c : Constant} {t : ValueType} {i : Nat}

/-- Every index leads to its encoding, the number of constants fits in two bytes, and every constant
is one that is encoded. -/
structure Sound (p : Pool) : Prop where
  found : ∀ (key : Bytes) (i : Nat), p.index[key]? = some i →
    ∃ c, p.entries[i]? = some c ∧ c.encode = key
  size_le : p.size ≤ 65535
  countable : ∀ c ∈ p.entries, c.Countable
  poolable : ∀ t ∈ p.requested, t.isPoolable = true

theorem length_entries (p : Pool) : p.entries.length = p.size := by
  rw [entries, List.length_reverse, p.size_eq]

theorem Sound.empty (owner : Text) : (Pool.empty owner).Sound where
  found key i h := by simp [Pool.empty] at h
  size_le := Nat.zero_le _
  countable c hc := by cases hc
  poolable t ht := by cases ht

/-- A constant is interned when its counts fit, under its encoding. -/
theorem intern_of_countable (h : c.Countable) : p.intern c = p.internAs c.encode c := by
  rw [intern, Constant.encoded_of_countable h]
  rfl

theorem countable_of_intern (h : p.intern c = .ok (i, q)) : c.Countable := by
  obtain ⟨key, hkey, -⟩ := exists_of_except_bind h
  exact (Constant.encoded_eq_ok hkey).1

/-- A constant is found again, or comes last. -/
theorem intern_cases (h : p.intern c = .ok (i, q)) :
    (p.index[c.encode]? = some i ∧ q = p) ∨
      (i = p.size ∧ p.size < 65535 ∧ q.size = p.size + 1 ∧ q.entries = p.entries ++ [c] ∧
        q.index = p.index.insert c.encode p.size ∧ q.requested = p.requested) := by
  rw [intern_of_countable (countable_of_intern h)] at h
  unfold internAs at h
  split at h
  · next found hfound =>
    cases h
    exact .inl ⟨hfound, rfl⟩
  · split at h
    · cases h
    · next hroom =>
      cases h
      exact .inr ⟨rfl, Nat.lt_of_not_le hroom, rfl, by simp [entries], rfl, rfl⟩

theorem requested_of_intern (h : p.intern c = .ok (i, q)) : q.requested = p.requested := by
  rcases intern_cases h with ⟨-, rfl⟩ | ⟨-, -, -, -, -, hrequested⟩
  · rfl
  · exact hrequested

/-- A pool keeps its constants. -/
theorem entries_prefix_of_intern (h : p.intern c = .ok (i, q)) : p.entries <+: q.entries := by
  rcases intern_cases h with ⟨-, rfl⟩ | ⟨-, -, -, hentries, -, -⟩
  · exact List.prefix_rfl
  · rw [hentries]
    exact List.prefix_append _ _

/-- **The index of a constant leads to its encoding**, now and later. -/
theorem Sound.intern (hp : p.Sound) (h : p.intern c = .ok (i, q)) :
    q.Sound ∧ ∃ entry, q.entries[i]? = some entry ∧ entry.encode = c.encode := by
  have hcountable := countable_of_intern h
  rcases intern_cases h with ⟨hfound, rfl⟩ | ⟨rfl, hroom, hsize, hentries, hindex, hrequested⟩
  · exact ⟨hp, hp.found _ i hfound⟩
  · -- the new constant stands right after the old ones
    have hnew : q.entries[p.size]? = some c := by
      rw [hentries, ← p.length_entries, List.getElem?_concat_length]
    have hcountables : ∀ d ∈ q.entries, d.Countable := by
      rw [hentries, List.forall_mem_append, List.forall_mem_singleton]
      exact ⟨hp.countable, hcountable⟩
    refine ⟨⟨fun key j hj => ?_, by omega, hcountables, hrequested ▸ hp.poolable⟩, c, hnew, rfl⟩
    rw [hindex, Std.TreeMap.getElem?_insert] at hj
    split at hj
    · next heq =>
      cases hj
      exact ⟨c, hnew, Std.LawfulEqCmp.eq_of_compare heq⟩
    · obtain ⟨d, hd, hkey⟩ := hp.found key j hj
      refine ⟨d, ?_, hkey⟩
      rw [hentries, List.getElem?_append_left (List.getElem?_eq_some_iff.mp hd).1]
      exact hd

theorem request_eq_ok_iff : p.request t = .ok q ↔
    t.isPoolable = true ∧ q = { p with requested := t :: p.requested } := by
  unfold request requirePoolable
  cases t.isPoolable with
  | true => simp [bind, Except.bind, pure, Except.pure, eq_comm]
  | false => simp [bind, Except.bind]

theorem Sound.request (hp : p.Sound) (h : p.request t = .ok q) : q.Sound := by
  obtain ⟨ht, rfl⟩ := request_eq_ok_iff.mp h
  refine ⟨hp.found, hp.size_le, hp.countable, fun t' ht' => ?_⟩
  rcases List.mem_cons.mp ht' with rfl | ht'
  · exact ht
  · exact hp.poolable t' ht'

/-- The types that constants have, in the order of types. -/
def types : List ValueType := [.string, .map, .intArray, .longArray, .numberArray, .objectArray]

/-- **The accessors of a pool come in a fixed order**, each at most once. -/
theorem accessors_eq (hp : p.Sound) : p.accessors = types.filter p.requested.contains := by
  have htypes : types = ValueType.all.filter ValueType.isPoolable := by decide
  rw [accessors, htypes, List.filter_filter]
  refine List.filter_congr fun t _ => ?_
  -- an accessor that was asked for is one at a type that constants have
  by_cases ht : t ∈ p.requested
  · simp [ht, hp.poolable t ht]
  · simp [ht]

/-- A type that constants have has an accessor. -/
theorem exists_accessor (ht : t.isPoolable = true) :
    ∃ name, accessorName t = .ok name ∧
      accessorSignature t = .ok { result := t, params := [.int] } := by
  have hsignature : accessorSignature t = .ok { result := t, params := [.int] } := by
    unfold accessorSignature requirePoolable
    rw [ht]
    rfl
  cases t with
  | string | map | intArray | longArray | numberArray | objectArray => exact ⟨_, rfl, hsignature⟩
  | _ => cases ht

end Pool

end Bytecode
