import Mathlib
import Bytecode.Proofs.Unit.Accessors
import Bytecode.Proofs.Unit.Tracing

/-!
# Counters of a unit

A unit reports numbers while it is made, a little at a time: one whenever a routine ends, one or two
for the accessors of a type, the rest at the very end. Nothing compares them to what the unit holds.
They agree all the same. The keys that were counted are listed here, once for each time, and a
counter shows how often its key is in the list. As long as a unit is not ended there is one key for
each of its records.

## Main definitions

* `Metrics.Tallies`: the counters show how often each key was counted
* `UnitBuilder.Tallies`: the counters show the records of a unit, and other keys
* `UnitBuilder.Accounts`: what the metrics are when the unit has ended

## Main results

* `Metrics.Tallies.count`: a key is counted
* `Build.keeps_perform_tallies`: a request keeps the counters and the records together
* `Build.ends_accessors_tallies`: accessors are counted as records and as accessors
* `Build.ends_finish_accounts`: the metrics of a unit that was ended
-/

namespace Bytecode

/-! ### Counting -/

namespace Metrics

variable {m : Metrics} {keys keys' : List Text}

/-- The key for the number of routines. -/
def routinesKey : Text := "emit.routines"

/-- The key for the number of accessors. -/
def accessorsKey : Text := "emit.accessors"

/-- The key for the number of constants. -/
def constantsKey : Text := "emit.constants"

/-- The key for the size of the encoded unit. -/
def bytesKey : Text := "emit.unit_bytes"

/-- A number as a counter shows it: a counter that was never set is not there. -/
def shown (n : Nat) : Option UInt64 := if n = 0 then none else some n.toUInt64

/-- The counters show how often each key was counted. -/
def Tallies (m : Metrics) (keys : List Text) : Prop :=
  ∀ key, m.counters[key]? = shown (keys.count key)

theorem Tallies.empty (h : m.counters = ∅) : m.Tallies [] := by
  intro key
  rw [h]
  simp [shown]

/-- The order in which keys were counted does not matter. -/
theorem Tallies.perm (h : m.Tallies keys) (hkeys : keys.Perm keys') : m.Tallies keys' := by
  intro key
  rw [h key, hkeys.count_eq]

theorem Tallies.counter_eq (h : m.Tallies keys) (key : Text) :
    m.counter key = (keys.count key).toUInt64 := by
  rw [counter, Std.TreeMap.getD_eq_getD_getElem?, h key, shown]
  split
  · next hzero =>
    rw [hzero]
    rfl
  · rfl

/-- A key is counted, a number of times at once. -/
theorem Tallies.count (h : m.Tallies keys) (key : Text) {n : Nat} (hn : n ≠ 0) :
    (m.count key n.toUInt64).Tallies (List.replicate n key ++ keys) := by
  intro k
  show (m.counters.insert key (m.counter key + n.toUInt64))[k]? = _
  rw [Std.TreeMap.getElem?_insert, h.counter_eq, h k, List.count_append, List.count_replicate]
  by_cases hk : key = k
  · subst hk
    have hpos : n + keys.count key ≠ 0 := by omega
    rw [if_pos Std.ReflCmp.compare_self, if_pos (beq_self_eq_true key), shown, if_neg hpos,
      Nat.add_comm]
    simp
  · have hcompare : compare key k ≠ .eq := fun heq => hk (Std.compare_eq_iff_eq.mp heq)
    rw [if_neg hcompare, if_neg (by simpa using hk), Nat.zero_add]

end Metrics

namespace Context

variable {c c' : Context} {tree : Option TreeSize} {keys keys' : List Text}

/-- There are metrics, with the given size of a tree, and the counters show how often each key was
counted. -/
def Tallies (c : Context) (tree : Option TreeSize) (keys : List Text) : Prop :=
  ∃ m, c.metrics = some m ∧ m.tree = tree ∧ m.Tallies keys

theorem Tallies.of_metrics (h : c.Tallies tree keys) (hc : c'.metrics = c.metrics) :
    c'.Tallies tree keys := by
  rwa [Tallies, hc]

theorem Tallies.perm (h : c.Tallies tree keys) (hkeys : keys.Perm keys') :
    c.Tallies tree keys' := by
  obtain ⟨m, hm, htree, hkeys'⟩ := h
  exact ⟨m, hm, htree, hkeys'.perm hkeys⟩

theorem Tallies.count (h : c.Tallies tree keys) (key : Text) {n : Nat} (hn : n ≠ 0) :
    (c.count key n.toUInt64).Tallies tree (List.replicate n key ++ keys) := by
  obtain ⟨m, hm, htree, hkeys⟩ := h
  refine ⟨m.count key n.toUInt64, ?_, htree, hkeys.count key hn⟩
  rw [Context.count, measure, hm, Option.map_some]

theorem Tallies.countIf (h : c.Tallies tree keys) (key : Text) (wanted : Bool) :
    (if wanted then c.count key 1 else c).Tallies tree
      ((if wanted then [key] else []) ++ keys) := by
  cases wanted with
  | false => exact h
  | true => exact h.count key one_ne_zero

/-- Timers are no counters. -/
theorem Tallies.measure (h : c.Tallies tree keys) {f : Metrics → Metrics}
    (hf : ∀ m, (f m).tree = m.tree ∧ (f m).counters = m.counters) :
    (c.measure f).Tallies tree keys := by
  obtain ⟨m, hm, htree, hkeys⟩ := h
  refine ⟨f m, by rw [Context.measure, hm, Option.map_some], (hf m).1.trans htree, fun key => ?_⟩
  rw [(hf m).2]
  exact hkeys key

theorem Tallies.start (h : c.Tallies tree keys) (stage : Text) :
    (c.measure (·.start stage)).Tallies tree keys := h.measure fun _ => ⟨rfl, rfl⟩

theorem Tallies.stop (h : c.Tallies tree keys) (stage : Text) :
    (c.measure (·.stop stage)).Tallies tree keys := by
  refine h.measure fun m => ?_
  unfold Metrics.stop
  split
  · exact ⟨rfl, rfl⟩
  · exact ⟨rfl, rfl⟩

/-- The size of the tree is noted. -/
theorem Tallies.setTree (h : c.Tallies tree keys) (size : TreeSize) :
    (c.measure fun m => { m with tree := some size }).Tallies (some size) keys := by
  obtain ⟨m, hm, -, hkeys⟩ := h
  exact ⟨{ m with tree := some size }, by rw [Context.measure, hm, Option.map_some], rfl, hkeys⟩

end Context

/-! ### Requests -/

namespace UnitBuilder

variable {u v : UnitBuilder} {tree : Option TreeSize} {keys : List Text}

/-- One key for each record. -/
def recordKeys (u : UnitBuilder) : List Text := List.replicate u.finished.size Metrics.routinesKey

/-- One key for each accessor. -/
def accessorKeys (count : Nat) : List Text := List.replicate count Metrics.accessorsKey

/-- The counters show the records of the unit, and besides them the given keys. -/
def Tallies (tree : Option TreeSize) (keys : List Text) (u : UnitBuilder) : Prop :=
  u.context.Tallies tree (u.recordKeys ++ keys)

theorem Tallies.rests (h : u.Tallies tree keys) (hrests : u.Rests v) : v.Tallies tree keys := by
  rwa [Tallies, recordKeys, hrests.context_eq, hrests.finished_eq]

/-- Accessors are counted, a number of them at once. -/
theorem Tallies.countAccessors (h : u.Tallies tree keys) {n : Nat} (hn : n ≠ 0) :
    Tallies tree (accessorKeys n ++ keys)
      { u with context := u.context.count Metrics.accessorsKey n.toUInt64 } :=
  (Context.Tallies.count h Metrics.accessorsKey hn).perm (List.perm_append_comm_assoc _ _ _)

end UnitBuilder

namespace Build

open UnitBuilder

variable {α : Type} {u : UnitBuilder} {tree : Option TreeSize} {keys : List Text}

theorem Quiet.keeps_tallies {m : Build α} (hm : Quiet m) :
    Keeps (Tallies tree keys) (Tallies tree keys) m := fun u hu =>
  (hm.ends u).mono (fun _ _ hv => hu.rests hv) fun _ _ hv => hu.rests hv

/-- A routine that ends is counted with its record. -/
theorem keeps_endRoutine_tallies (id : Nat) :
    Keeps (Tallies tree keys) (Tallies tree keys) (endRoutine id) := by
  intro u hu
  refine ends_endRoutine_of (fun _ _ => hu) fun r record context _ _ _ htraces => ?_
  have hlogged : context.Tallies tree (u.recordKeys ++ keys) := hu.of_metrics htraces.metrics_eq
  refine ends_keep_of (fun _ _ => hlogged) fun _ _ => ?_
  rw [Tallies, recordKeys, Array.size_push]
  exact hlogged.count Metrics.routinesKey one_ne_zero

/-- **A request keeps the counters and the records together**, whichever way it comes out. -/
theorem keeps_perform_tallies {r : UnitRequest} (hr : r ≠ .finish) :
    Keeps (Tallies tree keys) (Tallies tree keys) (perform r) := by
  by_cases hend : ∃ id, r = .endRoutine id
  · obtain ⟨id, rfl⟩ := hend
    exact keeps_endRoutine_tallies id
  · exact (quiet_perform hr (not_exists.mp hend)).keeps_tallies

end Build

theorem UnitBuilder.Tallies.after {u : UnitBuilder} {tree : Option TreeSize} {keys : List Text}
    {requests : List UnitRequest} (h : u.Tallies tree keys) (hfinish : .finish ∉ requests) :
    (u.after requests).Tallies tree keys := by
  induction requests generalizing u with
  | nil => exact h
  | cons r requests ih =>
    rw [List.mem_cons, not_or] at hfinish
    have hstep : Build.Keeps (Tallies tree keys) (Tallies tree keys) (Build.perform r) :=
      Build.keeps_perform_tallies (Ne.symm hfinish.1)
    exact ih (hstep u h).leaves hfinish.2

/-! ### Accessors -/

namespace Build

open UnitBuilder

variable {u : UnitBuilder} {tree : Option TreeSize} {keys : List Text} {type : ValueType}
  {flags : List Flag}

/-- A synthesized routine is counted as one record. -/
theorem ends_synthesize_tallies {name : Text} {signature : Signature} {code : Nat → Build Unit}
    (hcode : ∀ id, Emits id (code id)) (hu : u.Tallies tree keys) :
    Ends (synthesize flags name signature code) u
      (fun _ v => v.Tallies tree keys ∧ v.finished.size = u.finished.size + 1) fun _ _ => True := by
  have hkeeps : Keeps (Tallies tree keys) (Tallies tree keys)
      (synthesize flags name signature code) := by
    refine (quiet_routine _ name signature).keeps_tallies.bind fun id => ?_
    refine (quiet_beginRoutine id).keeps_tallies.bind fun _ => ?_
    refine Keeps.bind ?_ fun _ => keeps_endRoutine_tallies id
    exact hcode id _ _ (fun _ hv => hv) fun e => (quiet_onRoutine id _).keeps_tallies
  refine ((hkeeps u hu).and (ends_synthesize_member hcode)).mono ?_ fun _ _ _ => trivial
  rintro - v ⟨hv, hmembers⟩
  refine ⟨hv, ?_⟩
  have hlength := congrArg List.length hmembers
  simpa [members] using hlength

theorem ends_valueAccessor_tallies (hu : u.Tallies tree keys) :
    Ends (valueAccessor flags type) u
      (fun _ v => v.Tallies tree keys ∧ v.finished.size = u.finished.size + 1) fun _ _ => True :=
  ends_valueAccessor_of (fun _ => trivial) fun _ _ _ _ _ hcode => ends_synthesize_tallies hcode hu

theorem ends_arrayAccessor_tallies (hu : u.Tallies tree keys) :
    Ends (arrayAccessor type) u
      (fun _ v => v.Tallies tree keys ∧ v.finished.size = u.finished.size + 1) fun _ _ => True :=
  ends_arrayAccessor_of (fun _ => trivial) fun _ _ _ _ _ hcode => ends_synthesize_tallies hcode hu

theorem ends_mapSetter_tallies (hu : u.Tallies tree keys) :
    Ends mapSetter u
      (fun _ v => v.Tallies tree keys ∧ v.finished.size = u.finished.size + 1) fun _ _ => True :=
  ends_mapSetter_of fun _ hcode => ends_synthesize_tallies hcode hu

/-- The accessors of a type are counted as records, and as accessors. -/
theorem ends_accessor_tallies (type : ValueType) (hu : u.Tallies tree keys) :
    Ends (accessor type) u
      (fun _ v => ∃ n, v.finished.size = u.finished.size + n ∧
        v.Tallies tree (accessorKeys n ++ keys)) fun _ _ => True := by
  unfold accessor
  split
  · refine (ends_valueAccessor_tallies hu).next ?_
    rintro - v ⟨hv, hsize⟩
    exact Ends.modify ⟨1, hsize, hv.countAccessors one_ne_zero⟩
  · refine (ends_valueAccessor_tallies hu).next ?_
    rintro - v ⟨hv, hsize⟩
    refine (ends_mapSetter_tallies hv).next ?_
    rintro - w ⟨hw, hsize'⟩
    exact Ends.modify ⟨2, hsize'.trans (by rw [hsize]), hw.countAccessors two_ne_zero⟩
  · refine (ends_arrayAccessor_tallies hu).next ?_
    rintro - v ⟨hv, hsize⟩
    exact Ends.modify ⟨1, hsize, hv.countAccessors one_ne_zero⟩

/-- **Accessors are counted as records, and as accessors.** -/
theorem ends_accessors_tallies (types : List ValueType) (hu : u.Tallies tree keys) :
    Ends (types.forM accessor) u
      (fun _ v => ∃ n, v.finished.size = u.finished.size + n ∧
        v.Tallies tree (accessorKeys n ++ keys)) fun _ _ => True := by
  induction types generalizing u keys with
  | nil => exact ⟨0, rfl, hu⟩
  | cons t types ih =>
    refine (ends_accessor_tallies t hu).next ?_
    rintro - v ⟨n, hsize, hv⟩
    refine (ih hv).mono ?_ fun _ _ _ => trivial
    rintro - w ⟨k, hsize', hw⟩
    refine ⟨k + n, by omega, ?_⟩
    rwa [accessorKeys, accessorKeys, ← List.append_assoc, List.replicate_append_replicate] at hw

end Build

/-! ### The end of a unit -/

/-- What the metrics are when the unit has ended: the counters show its records and the given keys,
and the number of its constants even if there are none. -/
structure UnitBuilder.Accounts (u : UnitBuilder) (tree : Option TreeSize) (keys : List Text)
    (m : Metrics) : Prop where
  metrics_eq : u.context.metrics = some m
  tree_eq : m.tree = tree
  counters_eq : ∀ key, key ≠ Metrics.constantsKey →
    m.counters[key]? = Metrics.shown ((u.recordKeys ++ keys).count key)
  constants_eq : m.counters[Metrics.constantsKey]? = some u.pool.size.toUInt64
  bytes_eq : m.gauges[Metrics.bytesKey]? = some u.bytes.length.toUInt64

namespace Build

open UnitBuilder

variable {u : UnitBuilder} {tree : Option TreeSize} {keys : List Text}

/-- The last two numbers are reported when the unit is complete. -/
theorem exists_accounts_of_tallies (bytes : Bytes) (hu : u.Tallies tree keys)
    (hkeys : Metrics.constantsKey ∉ keys) :
    ∃ m, Accounts { u with
      bytes
      phase := .ended
      context := (u.context.count Metrics.constantsKey u.pool.size.toUInt64).gauge Metrics.bytesKey
        bytes.length.toUInt64 } tree keys m := by
  obtain ⟨m, hm, htree, htallies⟩ := hu
  have hnone : m.counter Metrics.constantsKey = 0 := by
    have hcount : (u.recordKeys ++ keys).count Metrics.constantsKey = 0 := by
      refine List.count_eq_zero.mpr fun hmem => ?_
      rcases List.mem_append.mp hmem with hrecord | hother
      · exact absurd (List.eq_of_mem_replicate hrecord) (by decide)
      · exact hkeys hother
    rw [htallies.counter_eq, hcount]
    rfl
  refine ⟨(m.count Metrics.constantsKey u.pool.size.toUInt64).gauge Metrics.bytesKey
    bytes.length.toUInt64, ?_, htree, fun key hkey => ?_, ?_, ?_⟩
  · simp only [Context.count, Context.gauge, Context.measure, hm, Option.map_some]
  · show (m.counters.insert _ _)[key]? = _
    have hcompare : compare Metrics.constantsKey key ≠ .eq := fun heq =>
      hkey (Std.compare_eq_iff_eq.mp heq).symm
    rw [Std.TreeMap.getElem?_insert, if_neg hcompare]
    exact htallies key
  · show (m.counters.insert _ (m.counter _ + _))[_]? = _
    rw [hnone, Std.TreeMap.getElem?_insert_self, UInt64.zero_add]
  · show (m.gauges.insert _ _)[_]? = _
    rw [Std.TreeMap.getElem?_insert_self]

/-- **The metrics of a unit that was ended.** The accessors that were added are counted too. -/
theorem ends_finish_accounts (hu : u.Tallies tree keys) (hkeys : Metrics.constantsKey ∉ keys) :
    Ends finish u
      (fun _ v => ∃ n m, v.finished.size = u.finished.size + n ∧
        v.Accounts tree (accessorKeys n ++ keys) m) fun _ _ => True := by
  refine Ends.bind (ends_requirePhase (fun _ _ => trivial) fun _ => Ends.bind (Ends.get ?_))
  dsimp only
  split
  · -- neither the encoding of the unit nor its verification counts anything
    have hassemble := ends_assemble_of (fun _ _ => trivial) (ends_accessors_tallies _ hu)
    refine Ends.bind (ends_attempt (hassemble.mono ?_ fun _ _ _ => trivial))
    rintro bytes v ⟨⟨n, hsize, hv⟩, -⟩
    have hnot : Metrics.constantsKey ∉ accessorKeys n ++ keys := by
      intro hmem
      rcases List.mem_append.mp hmem with haccessor | hother
      · exact absurd (List.eq_of_mem_replicate haccessor) (by decide)
      · exact hkeys hother
    obtain ⟨m, hm⟩ := exists_accounts_of_tallies bytes hv hnot
    refine Ends.bind (Ends.modify (Ends.bind (Ends.get (Ends.bind (Ends.modify (Ends.modify ?_))))))
    exact ⟨n, m, hsize, hm⟩
  · exact Ends.bind (Ends.get (Ends.bind trivial))

end Build

end Bytecode
