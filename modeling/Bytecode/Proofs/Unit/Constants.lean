import Mathlib
import Bytecode.Proofs.Assembly.Transcript
import Bytecode.Proofs.Unit.Accessors
import Bytecode.Proofs.Unit.Lifecycle

/-!
# References to constants

Loading a constant pools it, asks for the accessor of its type, and writes two instructions: one
pushes the index of the constant, the other invokes the accessor. The index, the symbol and the
accessor come from three tables at different times, and the accessor itself is there only when the
unit has ended. Since none of the tables takes anything back, each reference leads where it should,
whatever else is asked of the unit in between.

## Main definitions

* `Pool.after`: what a request makes of a pool
* `UnitBuilder.asked`: the types whose accessors are asked for in the course of requests
* `Image.Fetches`: two instructions that push a constant of the image

## Main results

* `Build.ends_loadConstant_code`: what loading a constant writes
* `Build.pool_perform`: what becomes of the pool of a unit depends on the pool alone
* `UnitBuilder.requested_after`: the accessors that a pool knows of are those that were asked for
* `Build.finish_fetches`: constants are fetched through the accessors of the unit
-/

namespace Bytecode

/-! ### What was asked for -/

/-- What a request makes of a pool. A constant that does not fit in the pool is given up before its
accessor is asked for. -/
def Pool.after (p : Pool) : UnitRequest → Pool
  | .intern c =>
    match p.intern c with
    | .ok (_, q) => q
    | .error _ => p
  | .request t => if t.isPoolable then { p with requested := t :: p.requested } else p
  | .loadConstant _ c =>
    match p.intern c with
    | .ok (_, q) => { q with requested := c.type :: q.requested }
    | .error _ => p
  | _ => p

/-- The constant that a request pools. -/
def UnitRequest.constant? : UnitRequest → Option Constant
  | .intern c | .loadConstant _ c => some c
  | _ => none

namespace UnitBuilder

/-- The types whose accessors a request asks for. -/
def asks (u : UnitBuilder) : UnitRequest → List ValueType
  | .request t => if t.isPoolable then [t] else []
  | .loadConstant _ c =>
    match u.pool.intern c with
    | .ok _ => [c.type]
    | .error _ => []
  | _ => []

/-- The types whose accessors are asked for in the course of requests. -/
def asked : UnitBuilder → List UnitRequest → List ValueType
  | _, [] => []
  | u, r :: rest => u.asks r ++ (leaves (Build.perform r) u).asked rest

end UnitBuilder

namespace Pool

variable {p : Pool} {c : Constant} {r : UnitRequest}

theorem mem_entries_of_intern {i : Nat} {q : Pool} (h : p.intern c = .ok (i, q)) {d : Constant}
    (hd : d ∈ q.entries) : d ∈ p.entries ∨ d = c := by
  rcases intern_cases h with ⟨-, rfl⟩ | ⟨-, -, -, hentries, -, -⟩
  · exact .inl hd
  · simpa [hentries] using hd

/-- A constant is in the pool only if it was pooled. -/
theorem mem_entries_after (h : c ∈ (p.after r).entries) : c ∈ p.entries ∨ r.constant? = some c := by
  have hkept : ∀ d, c ∈ p.entries ∨ c = d → c ∈ p.entries ∨ some d = some c := by
    rintro d (hc | rfl)
    · exact .inl hc
    · exact .inr rfl
  cases r with
  | intern d | loadConstant _ d =>
    cases hintern : p.intern d with
    | ok found =>
      simp only [after, hintern] at h
      exact hkept d (mem_entries_of_intern hintern h)
    | error e =>
      simp only [after, hintern] at h
      exact .inl h
  | request t =>
    rw [after] at h
    split at h
    · exact .inl h
    · exact .inl h
  | _ => exact .inl h

end Pool

namespace Build

open UnitBuilder

variable {u : UnitBuilder} {t : ValueType}

theorem request_of_isPoolable (ht : t.isPoolable = true) :
    Build.request t u =
      .ok () { u with pool := { u.pool with requested := t :: u.pool.requested } } := by
  have hpool : u.pool.request t = .ok { u.pool with requested := t :: u.pool.requested } :=
    Pool.request_eq_ok_iff.mpr ⟨ht, rfl⟩
  simp only [Build.request, hpool]

/-- Loading a constant pools it and asks for the accessor of its type, whatever comes next. -/
theorem ends_loadConstant_pool (id : Nat) (c : Constant) :
    Ends (loadConstant id c) u (fun _ v => v.pool = u.pool.after (.loadConstant id c))
      fun _ v => v.pool = u.pool.after (.loadConstant id c) := by
  cases hintern : u.pool.intern c with
  | error e =>
    have hrun : intern c u = .error e u := by simp only [intern, hintern]
    refine Ends.bind (Ends.of_error hrun ?_)
    simp only [Pool.after, hintern]
  | ok found =>
    obtain ⟨i, pool⟩ := found
    have hrun : intern c u = .ok i { u with pool } := by simp only [intern, hintern]
    refine Ends.bind (Ends.of_ok hrun ?_)
    refine Ends.bind (Ends.of_ok (request_of_isPoolable c.isPoolable_type) ?_)
    -- the rest does not touch the pool
    have hpool : u.pool.after (.loadConstant id c) =
        { pool with requested := c.type :: pool.requested } := by simp only [Pool.after, hintern]
    rw [hpool]
    exact (stepwise_fetch id i c.type _).mono (fun _ _ hv => hv.pool_eq) fun _ _ hv => hv.pool_eq

/-- What becomes of the pool of a unit depends on the pool alone. -/
theorem pool_perform (r : UnitRequest) : (leaves (perform r) u).pool = u.pool.after r := by
  by_cases hr : r.IsPooling
  · cases r with
    | loadConstant id c => exact (ends_loadConstant_pool id c).leaves
    | intern c =>
      cases hintern : u.pool.intern c with
      | ok found =>
        have hrun : intern c u = .ok found.1 { u with pool := found.2 } := by
          simp only [intern, hintern]
        have hends : Ends (perform (.intern c)) u (fun _ v => v.pool = found.2)
            fun _ v => v.pool = found.2 := Ends.map (Ends.of_ok hrun rfl)
        simpa only [Pool.after, hintern] using hends.leaves
      | error e =>
        have hrun : intern c u = .error e u := by simp only [intern, hintern]
        have hends : Ends (perform (.intern c)) u (fun _ v => v.pool = u.pool)
            fun _ v => v.pool = u.pool := Ends.map (Ends.of_error hrun rfl)
        simpa only [Pool.after, hintern] using hends.leaves
    | request t =>
      by_cases ht : t.isPoolable = true
      · rw [leaves, perform, request_of_isPoolable ht, Pool.after, if_pos ht]
      · have hsame : Ends (perform (.request t)) u (fun _ v => v.pool = u.pool)
            fun _ v => v.pool = u.pool := by
          refine ends_request.mono ?_ ?_
          · rintro - _ ⟨pool, hpool, rfl⟩
            exact absurd (Pool.request_eq_ok_iff.mp hpool).1 ht
          · rintro - _ rfl
            rfl
        rw [Pool.after, if_neg ht]
        exact hsame.leaves
    | _ => exact hr.elim
  · have hpool : (leaves (perform r) u).pool = u.pool :=
      (Ends.leaves (stepwise_perform hr u)).pool_eq
    have hsame : u.pool.after r = u.pool := by
      cases r with
      | loadConstant | request | intern => exact absurd trivial hr
      | _ => rfl
    rw [hpool, hsame]

/-- The accessors that a pool knows of after a request. -/
theorem requested_perform (r : UnitRequest) :
    (leaves (perform r) u).pool.requested = u.asks r ++ u.pool.requested := by
  rw [pool_perform]
  cases r with
  | loadConstant id c =>
    cases hintern : u.pool.intern c with
    | ok found =>
      simp only [Pool.after, asks, hintern, Pool.requested_of_intern hintern, List.singleton_append]
    | error e => simp only [Pool.after, asks, hintern, List.nil_append]
  | intern c =>
    cases hintern : u.pool.intern c with
    | ok found =>
      simp only [Pool.after, asks, hintern, Pool.requested_of_intern hintern, List.nil_append]
    | error e => simp only [Pool.after, asks, hintern, List.nil_append]
  | request t =>
    rw [Pool.after, asks]
    split
    · rfl
    · rfl
  | _ => rfl

end Build

/-- A constant is in the pool of a unit only if a request pooled it. -/
theorem UnitBuilder.mem_entries_after {u : UnitBuilder} {requests : List UnitRequest}
    {c : Constant} (h : c ∈ (u.after requests).pool.entries) :
    c ∈ u.pool.entries ∨ ∃ r ∈ requests, r.constant? = some c := by
  induction requests generalizing u with
  | nil => exact .inl h
  | cons r requests ih =>
    rcases ih (u := leaves (Build.perform r) u) h with hc | ⟨r', hr', hc⟩
    · rw [Build.pool_perform] at hc
      exact (Pool.mem_entries_after hc).imp id fun hc => ⟨r, List.mem_cons_self, hc⟩
    · exact .inr ⟨r', List.mem_cons_of_mem r hr', hc⟩

/-- **The accessors that a pool knows of are those that were asked for.** -/
theorem UnitBuilder.requested_after {u : UnitBuilder} {requests : List UnitRequest}
    {t : ValueType} : t ∈ (u.after requests).pool.requested ↔
      t ∈ u.asked requests ∨ t ∈ u.pool.requested := by
  induction requests generalizing u with
  | nil => simp [UnitBuilder.after, UnitBuilder.asked]
  | cons r requests ih =>
    change t ∈ ((leaves (Build.perform r) u).after requests).pool.requested ↔ _
    rw [ih, Build.requested_perform, UnitBuilder.asked, List.mem_append, List.mem_append]
    tauto

theorem UnitBuilder.asked_append (u : UnitBuilder) (requests more : List UnitRequest) :
    u.asked (requests ++ more) = u.asked requests ++ (u.after requests).asked more := by
  induction requests generalizing u with
  | nil => rfl
  | cons r requests ih =>
    rw [List.cons_append, asked, asked, ih, List.append_assoc]
    rfl

/-! ### What is written -/

/-- Two instructions of a routine push the constant `c`: the first one gives the index of a constant
with the encoding of `c`, the second one invokes the accessor for its type, of which the image has
exactly one. -/
def Image.Fetches (image : Image) (code : List Placed) (n : Nat) (c : Constant) : Prop :=
  ∃ p q i s k entry accessor signature,
    code[n]? = some p ∧ p.instruction = ⟨.pushInt, i⟩ ∧
    code[n + 1]? = some q ∧ q.instruction = ⟨.invoke, s⟩ ∧
    i.toInt = (k : Nat) ∧ image.constants[k]? = some entry ∧ entry.encode = c.encode ∧
    Pool.accessorName c.type = .ok accessor ∧ Pool.accessorSignature c.type = .ok signature ∧
    image.symbols[s.toNat]? =
      some (SymbolTable.member image.name accessor signature.descriptor) ∧
    image.routines.countP (fun r => r.member = (accessor, signature.descriptor)) = 1

namespace UnitBuilder

/-- Loading the constant `c` has taken the routine `id` from `r` in `u` to `r'` in `v`. -/
structure Loads (c : Constant) (id : Nat) (r r' : Routine) (u v : UnitBuilder) (index : Nat)
    (symbol : UInt16) : Prop where
  before : u.routines[id]? = some r
  after : v.routines[id]? = some r'
  continues : r.Continues r'
  code_eq : r'.assembler.instructions =
    r.assembler.instructions ++ [⟨.pushInt, index.toInt32⟩, ⟨.invoke, symbol⟩]
  index_lt : index < 65535
  pooled : ∃ entry, v.pool.entries[index]? = some entry ∧ entry.encode = c.encode
  requested : c.type ∈ v.pool.requested
  linked : ∃ accessor signature,
    Pool.accessorName c.type = .ok accessor ∧ Pool.accessorSignature c.type = .ok signature ∧
    v.symbols.entries[symbol.toNat]? =
      some (SymbolTable.member u.name accessor signature.descriptor)

end UnitBuilder

namespace Build

open UnitBuilder

variable {u : UnitBuilder} {t : ValueType}

theorem getElem?_putBack {id : Nat} {r : Routine} {s : Assembly} (hr : u.routines[id]? = some r) :
    (u.putBack id s).routines[id]? = some { r with assembler := s.assembler } := by
  rw [putBack, Array.getElem?_modify, if_pos rfl, hr, Option.map_some]

/-- **What loading a constant writes**: the index of the constant, and a call of the accessor. -/
theorem ends_loadConstant_code {id : Nat} {c : Constant} (hu : u.Linked) (hpool : u.pool.Sound) :
    Ends (loadConstant id c) u
      (fun _ v => ∃ r r' index symbol, Loads c id r r' u v index symbol) fun _ _ => True := by
  refine Ends.bind (ends_intern.mono ?_ fun _ _ _ => trivial)
  rintro index _ ⟨pool, hintern, rfl⟩
  obtain ⟨hsound, hentry⟩ := hpool.intern hintern
  refine Ends.bind (ends_request.mono ?_ fun _ _ _ => trivial)
  rintro - _ ⟨pool', hrequest, rfl⟩
  obtain ⟨-, rfl⟩ := Pool.request_eq_ok_iff.mp hrequest
  -- the index is pushed
  refine Ends.bind (ends_onRoutine (fun _ => trivial) fun r hr => ?_)
  have hlinked := hu.routines id r hr
  refine (Emit.ends_emission hlinked.wellFormed.noVoid).mono ?_ fun _ _ _ => trivial
  rintro - s ⟨_, stack, hpush⟩
  have hpushed := hpush.evolves hlinked
  refine Ends.bind (ends_ofExcept (fun _ _ => trivial) fun accessor haccessor => ?_)
  refine Ends.bind (ends_ofExcept (fun _ _ => trivial) fun signature hsignature => ?_)
  -- the accessor is invoked
  refine Ends.bind (Ends.get (ends_onRoutine (fun _ => trivial) fun r' hr' => ?_))
  obtain rfl := Option.some.inj (hr'.symm.trans (getElem?_putBack hr))
  refine (Emit.ends_emission hpushed.linked.wellFormed.noVoid).mono ?_ fun _ _ _ => trivial
  rintro - s' ⟨symbol, stack', hinvoke⟩
  have hcode : s'.assembler.instructions =
      r.assembler.instructions ++ [⟨.pushInt, index.toInt32⟩, ⟨.invoke, symbol⟩] := by
    rw [hinvoke.assembler_eq, Assembler.instructions_emitted, hpush.assembler_eq,
      Assembler.instructions_emitted, List.append_assoc]
    rfl
  have hlt : index < 65535 := by
    obtain ⟨entry, hentry, -⟩ := hentry
    have hsize := hsound.size_le
    have hindex := (List.getElem?_eq_some_iff.mp hentry).1
    rw [pool.length_entries] at hindex
    omega
  refine ⟨r, { r with assembler := s'.assembler }, index, symbol, hr, ?_, ⟨rfl, rfl, rfl, ?_⟩,
    hcode, hlt, hentry, List.mem_cons_self, accessor, signature, haccessor, hsignature, ?_⟩
  · exact getElem?_putBack (r := { r with assembler := s.assembler }) (getElem?_putBack hr)
  · exact (hpushed.trans (hinvoke.evolves hpushed.linked)).code_grows
  · -- the reference that was interned is the one to the accessor
    rcases hinvoke.interned with ⟨hnone, -⟩ | ⟨text, htext, hintern⟩
    · cases hnone
    · cases htext
      exact (hpushed.linked.symbols.intern hintern).2.1

/-- A routine that ends leaves the record of its code. -/
theorem ends_endRoutine_record {id : Nat} :
    Ends (endRoutine id) u
      (fun _ v => ∃ r record, u.routines[id]? = some r ∧ r.record = .ok record ∧
        v.finished = u.finished.push record)
      fun _ _ => True := by
  refine ends_endRoutine_of (fun _ _ => trivial) fun r record context hr _ hrecord _ => ?_
  exact ends_keep_of (fun _ _ => trivial) fun _ _ => ⟨r, record, hr, hrecord, rfl⟩

end Build

/-! ### Ended units -/

namespace UnitBuilder

variable {u v w : UnitBuilder} {completed : List Nat}

/-- What the records of a unit tell is what its completed routines do. -/
theorem map_of_records {β : Type} {g : Routine → β} {k : RoutineRecord → β}
    (hg : ∀ r record, r.RecordedAs record → k record = g r) {routines : Array Routine}
    {ids : List Nat} {records : List RoutineRecord}
    (h : List.Forall₂ (HasRecord routines) ids records) :
    ids.map (fun id => routines[id]?.map g) = (records.map k).map some := by
  induction h with
  | nil => rfl
  | cons hrecord _ ih =>
    obtain ⟨r, hr, hrecord⟩ := hrecord
    simp only [List.map_cons, hr, Option.map_some, hg r _ hrecord, ih]

/-- What the records of a unit tell is what its routines do, when these have ended in order. -/
theorem Lifecycle.map_finished {β : Type} {g : Routine → β} {k : RoutineRecord → β}
    (h : u.Lifecycle (List.range u.routines.size))
    (hg : ∀ r record, r.RecordedAs record → k record = g r) :
    u.finished.toList.map k = u.routines.toList.map g := by
  refine List.map_injective_iff.mpr (Option.some_injective _) ?_
  rw [← map_of_records hg h.records]
  refine List.ext_getElem? fun i => ?_
  by_cases hi : i < u.routines.size
  · simp [hi]
  · simp [hi]

/-- Two routines that have ended differ in identity. -/
theorem Lifecycle.nodup_entryPoints (h : u.Lifecycle completed) : u.entryPoints.Nodup := by
  refine List.Nodup.of_map some ?_
  rw [entryPoints, ← map_of_records (fun _ _ hrecord => hrecord.identity_eq) h.records]
  refine h.nodup_completed.map_on fun id hid id' _ hsame => ?_
  rw [← getElem?_known, ← getElem?_known] at hsame
  -- a completed routine is one of the known ones
  refine (List.getElem?_inj ?_ h.nodup_known).mp hsame
  rw [length_known]
  exact h.lt_of_mem hid

theorem Course.requested_mono (h : u.Course v) {t : ValueType} (ht : t ∈ u.pool.requested) :
    t ∈ v.pool.requested := by
  induction h with
  | refl => exact ht
  | step _ hstep ih => exact hstep.pool_eq ▸ ih
  | intern _ hpool ih => exact Pool.requested_of_intern hpool ▸ ih
  | request _ hpool ih =>
    obtain ⟨-, rfl⟩ := Pool.request_eq_ok_iff.mp hpool
    exact List.mem_cons_of_mem _ ih

/-- One record has a given name and descriptor, when identities differ. -/
theorem countP_member {records : List RoutineRecord} {record : RoutineRecord}
    (hnodup : (records.map RoutineRecord.identity).Nodup) (hrecord : record ∈ records) :
    records.countP (fun r => r.member = record.member) = 1 := by
  have hpos : 0 < records.countP (fun r => r.member = record.member) :=
    List.countP_pos_iff.mpr ⟨record, hrecord, by simp⟩
  have hcount : records.countP (fun r => r.identity = record.identity) = 1 := by
    have hone := List.count_eq_one_of_mem hnodup (List.mem_map_of_mem hrecord)
    rw [List.count, List.countP_map] at hone
    rw [← hone]
    exact List.countP_congr fun r _ => by simp
  have hle : records.countP (fun r => r.member = record.member) ≤
      records.countP (fun r => r.identity = record.identity) := by
    refine List.countP_mono_left fun r _ hr => ?_
    simp only [decide_eq_true_eq, RoutineRecord.member, Prod.mk.injEq] at hr ⊢
    rw [RoutineRecord.identity, RoutineRecord.identity, hr.1, hr.2]
  omega

/-- The accessor of a type that was asked for is a routine of the ended unit, once. -/
theorem Lifecycle.countP_accessor (h : w.Lifecycle completed)
    (hmembers : w.members = u.members ++ u.pool.accessors.flatMap Pool.accessorMembers)
    {t : ValueType} (ht : t ∈ u.pool.requested) {accessor : Text}
    {signature : Signature} (haccessor : Pool.accessorName t = .ok accessor)
    (hsignature : Pool.accessorSignature t = .ok signature) :
    w.image.routines.countP (fun r => r.member = (accessor, signature.descriptor)) = 1 := by
  have hmem : (accessor, signature.descriptor) ∈ w.members := by
    have hgetter : (accessor, signature.descriptor) ∈ Pool.accessorMembers t := by
      simp [Pool.accessorMembers, Pool.getter, haccessor, hsignature]
    have hlisted : t ∈ u.pool.accessors := by
      rw [Pool.accessors, List.mem_filter]
      refine ⟨?_, List.contains_iff_mem.mpr ht⟩
      cases t <;> decide
    rw [hmembers]
    exact List.mem_append_right _ (List.mem_flatMap.mpr ⟨t, hlisted, hgetter⟩)
  obtain ⟨record, hrecord, hmember⟩ := List.mem_map.mp hmem
  rw [← hmember]
  exact countP_member h.nodup_entryPoints hrecord

/-- A constant that was loaded is fetched by the code of its routine, once the unit has ended. -/
theorem Loads.fetches {c : Constant} {id index : Nat} {r r' last : Routine} {symbol : UInt16}
    {record : RoutineRecord} {base : UnitBuilder} (h : Loads c id r r' base u index symbol)
    (hlast : r'.Continues last) (hform : last.assembler.WellFormed)
    (hrecord : last.record = .ok record) (hgrows : u.Grows w)
    (hname : w.name = base.name)
    (hcount : ∀ accessor signature, Pool.accessorName c.type = .ok accessor →
      Pool.accessorSignature c.type = .ok signature →
      w.image.routines.countP (fun r => r.member = (accessor, signature.descriptor)) = 1) :
    ∃ code, Code.decode record.code = .ok code ∧
      w.image.Fetches code r.assembler.instructions.length c := by
  obtain ⟨accessor, signature, haccessor, hsignature, hsymbol⟩ := h.linked
  obtain ⟨entry, hentry, hencode⟩ := h.pooled
  obtain ⟨bytes, hfinish, -, -, rfl⟩ := Routine.record_eq_ok hrecord
  obtain ⟨-, rfl, -⟩ := hform.finish_eq_ok hfinish
  refine ⟨_, Code.decode_encode _, ?_⟩
  have hcode := hlast.code_grows
  rw [h.code_eq] at hcode
  have hpush : last.assembler.instructions[r.assembler.instructions.length]? =
      some ⟨.pushInt, index.toInt32⟩ := getElem?_of_prefix hcode (by simp)
  have hinvoke : last.assembler.instructions[r.assembler.instructions.length + 1]? =
      some ⟨.invoke, symbol⟩ := getElem?_of_prefix hcode (by simp)
  have hindex : index.toInt32.toInt = (index : Int) := by
    have hlt := h.index_lt
    exact Int32.toInt_ofNat_of_lt (by omega)
  have hplaced : ∀ (n : Nat) i, last.assembler.instructions[n]? = some i →
      ∃ p, (Code.placed last.assembler.resolved)[n]? = some p ∧
        p.instruction = i.map last.assembler.offsetOf := by
    intro n i hi
    rw [Assembler.getElem?_placed_resolved, hi, Option.map_some]
    exact ⟨_, rfl, rfl⟩
  obtain ⟨p, hp, hpi⟩ := hplaced _ _ hpush
  obtain ⟨q, hq, hqi⟩ := hplaced _ _ hinvoke
  refine ⟨p, q, index.toInt32, symbol, index, entry, accessor, signature, hp, hpi, hq, hqi, hindex,
    getElem?_of_prefix hgrows.constants hentry, hencode, haccessor, hsignature, ?_,
    hcount accessor signature haccessor hsignature⟩
  change w.symbols.entries[symbol.toNat]? = some (SymbolTable.member w.name _ _)
  rw [hname]
  exact getElem?_of_prefix hgrows.symbols hsymbol

theorem after_append (u : UnitBuilder) (requests more : List UnitRequest) :
    u.after (requests ++ more) = (u.after requests).after more := List.foldl_append

/-- A request that was granted, and what comes after it. -/
theorem after_cons_of_ok {r : UnitRequest} {x : Unit} (h : Build.perform r u = .ok x v)
    (rest : List UnitRequest) : u.after (r :: rest) = v.after rest := by
  change (leaves (Build.perform r) u).after rest = _
  rw [leaves, h]

end UnitBuilder

/-- A constant that was loaded into a routine is fetched by the record that the routine leaves. -/
theorem Build.fetches_of_loadConstant {base u x v w : UnitBuilder} {id : Nat} {c : Constant}
    (hlinked : base.Linked) (hpool : base.pool.Sound)
    (hload : Build.loadConstant id c base = .ok () u)
    (hmid : u.Course x) (hend : Build.endRoutine id x = .ok () v) (hrest : v.Course w)
    (hcount : c.type ∈ x.pool.requested → ∀ accessor signature,
      Pool.accessorName c.type = .ok accessor → Pool.accessorSignature c.type = .ok signature →
      w.image.routines.countP (fun r => r.member = (accessor, signature.descriptor)) = 1) :
    ∃ r record code, base.routines[id]? = some r ∧ record ∈ w.image.routines ∧
      record.member = (r.name, r.signature.descriptor) ∧ Code.decode record.code = .ok code ∧
      w.image.Fetches code r.assembler.instructions.length c := by
  obtain ⟨r, r', index, symbol, hloads⟩ := (ends_loadConstant_code hlinked hpool).ok hload
  obtain ⟨hu, hgrowsu⟩ :=
    ((course_perform (.loadConstant id c) base).ok hload).linked_grows hlinked
  obtain ⟨hx, hgrowsx⟩ := hmid.linked_grows hu
  obtain ⟨hv, hgrowsv⟩ := ((course_perform (.endRoutine id) x).ok hend).linked_grows hx
  obtain ⟨-, hgrowsw⟩ := hrest.linked_grows hv
  have hgrows : u.Grows w := (hgrowsx.trans hgrowsv).trans hgrowsw
  -- the routine that ends is the one that the constant was loaded into
  obtain ⟨last, record, hlast, hrecord, hfinished⟩ := ends_endRoutine_record.ok hend
  obtain ⟨last', hlast', hcontinues⟩ := hgrowsx.routines id r' hloads.after
  obtain rfl := Option.some.inj (hlast'.symm.trans hlast)
  have hname : w.name = base.name := congrArg UnitHeader.name (hgrowsu.trans hgrows).header_eq
  have hform := (hx.routines id last' hlast').wellFormed
  obtain ⟨code, hdecode, hfetches⟩ := hloads.fetches hcontinues hform hrecord hgrows hname
    (hcount (hmid.requested_mono hloads.requested))
  refine ⟨r, record, code, hloads.before, hgrowsw.finished.subset ?_, ?_, hdecode, hfetches⟩
  · rw [hfinished, Array.toList_push]
    exact List.mem_append_right _ List.mem_cons_self
  · have hsame := hloads.continues.trans hcontinues
    have hmember := Routine.RecordedAs.member_eq ⟨last'.assembler, hrecord⟩
    rw [hmember, hsame.name_eq, hsame.signature_eq]

/-- The accessors that a unit will have are those that were asked for. -/
theorem UnitBuilder.accessors_after (context : Context) (name source : Text) (strict : Bool)
    (requests : List UnitRequest) :
    let start := UnitBuilder.new context name source strict
    (start.after requests).pool.Sound ∧ (start.after requests).pool.accessors =
      Pool.types.filter (start.asked requests).contains := by
  intro start
  have hsound : (start.after requests).pool.Sound :=
    (UnitBuilder.course_after start requests).pool_sound (.empty name)
  refine ⟨hsound, ?_⟩
  rw [Pool.accessors_eq hsound]
  refine List.filter_congr fun t _ => ?_
  have hnone : t ∉ start.pool.requested := List.not_mem_nil
  rw [Bool.eq_iff_iff, List.contains_iff_mem, List.contains_iff_mem,
    UnitBuilder.requested_after, or_iff_left hnone]

/-- The routines that come with the end of a unit are the accessors that were asked for. -/
theorem Build.exists_added {context : Context} {name source : Text} {strict : Bool}
    {requests : List UnitRequest} {w : UnitBuilder}
    (hfinish : Build.finish ((UnitBuilder.new context name source strict).after requests) =
      .ok () w) :
    let start := UnitBuilder.new context name source strict
    ∃ added, w.image.routines = (start.after requests).image.routines ++ added ∧
      added.map RoutineRecord.member =
        (Pool.types.filter (start.asked requests).contains).flatMap Pool.accessorMembers := by
  intro start
  have hcourse := UnitBuilder.course_after start requests
  have hlinked := (hcourse.linked_grows (UnitBuilder.linked_new context name source strict)).1
  have hlast : (start.after requests).Course w := (course_perform .finish _).ok hfinish
  obtain ⟨added, hadded⟩ := (hlast.linked_grows hlinked).2.finished
  refine ⟨added, hadded.symm, ?_⟩
  have hmembers := ends_finish_members.ok hfinish
  rw [UnitBuilder.members, UnitBuilder.members, ← hadded, List.map_append,
    List.append_cancel_left_eq] at hmembers
  rw [hmembers, (UnitBuilder.accessors_after context name source strict requests).2]

/-- **Constants are fetched through the accessors of the unit.** Whatever is asked of a unit that is
ended then: a constant that was loaded into a routine which ended later is fetched by the record of
that routine, at the place where the routine stood. The symbol is the reference to the accessor in
this unit. The routines that come with the end of the unit are the accessors of the types for which
they were asked for, in the order of types, with the one that replaces maps after that of maps. -/
theorem Build.finish_fetches {context : Context} {name source : Text} {strict : Bool}
    {requests : List UnitRequest} {w : UnitBuilder}
    (hfinish : Build.finish ((UnitBuilder.new context name source strict).after requests) =
      .ok () w) :
    let start := UnitBuilder.new context name source strict
    w.image.encode = .ok w.bytes ∧ w.image.name = name ∧
    (∀ before mid rest id c u v,
      requests = before ++ .loadConstant id c :: (mid ++ .endRoutine id :: rest) →
      Build.loadConstant id c (start.after before) = .ok () u →
      Build.endRoutine id (start.after (before ++ .loadConstant id c :: mid)) = .ok () v →
      ∃ r record code, (start.after before).routines[id]? = some r ∧
        record ∈ w.image.routines ∧ record.member = (r.name, r.signature.descriptor) ∧
        Code.decode record.code = .ok code ∧
        w.image.Fetches code r.assembler.instructions.length c) ∧
    ∃ added, w.image.routines = (start.after requests).image.routines ++ added ∧
      added.map RoutineRecord.member =
        (Pool.types.filter (start.asked requests).contains).flatMap Pool.accessorMembers := by
  intro start
  have hlinked : start.Linked := UnitBuilder.linked_new context name source strict
  have hpool : start.pool.Sound := .empty name
  have hcourse := UnitBuilder.course_after start
  -- the unit ends in the course of requests, too
  have hlast : (start.after requests).Course w := (course_perform .finish _).ok hfinish
  have hmembers := ends_finish_members.ok hfinish
  have hlife := (UnitBuilder.lifecycle_new context name source strict).after requests
  obtain ⟨-, ⟨ids, -, hw⟩, hencode⟩ := (ends_finish_staged ⟨hlife, rfl⟩).ok hfinish
  obtain ⟨hgrown, hgrows⟩ := (hcourse requests).linked_grows hlinked
  obtain ⟨-, hgrowsw⟩ := hlast.linked_grows hgrown
  refine ⟨hencode, congrArg UnitHeader.name (hgrows.trans hgrowsw).header_eq, ?_,
    exists_added hfinish⟩
  rintro before mid rest id c u v rfl hload hend
  have hu : start.after (before ++ .loadConstant id c :: mid) = u.after mid := by
    rw [UnitBuilder.after_append,
      UnitBuilder.after_cons_of_ok (r := .loadConstant id c) hload]
  have hv : start.after (before ++ .loadConstant id c :: (mid ++ .endRoutine id :: rest)) =
      v.after rest := by
    rw [← List.cons_append, ← List.append_assoc, UnitBuilder.after_append,
      UnitBuilder.after_cons_of_ok (r := .endRoutine id) hend]
  rw [hu] at hend
  rw [hv] at hlast hmembers
  refine fetches_of_loadConstant ((hcourse before).linked_grows hlinked).1
    ((hcourse before).pool_sound hpool) hload (UnitBuilder.course_after u mid) hend
    ((UnitBuilder.course_after v rest).trans hlast) fun hrequested => ?_
  have hasked : c.type ∈ (v.after rest).pool.requested :=
    (UnitBuilder.course_after v rest).requested_mono
      (((course_perform (.endRoutine id) _).ok hend).requested_mono hrequested)
  exact fun _ _ => hw.lifecycle.countP_accessor hmembers hasked

theorem Build.interleavedUnit_fetches : ∃ w : UnitBuilder,
    Build.finish ((UnitBuilder.new {} "unit" "source" true).after interleavedUnit) = .ok () w ∧
      (∃ record code, record ∈ w.image.routines ∧
        record.member = (("second" : Text), ("()T" : Text)) ∧ Code.decode record.code = .ok code ∧
        w.image.Fetches code 0 (.string "text")) ∧
      ∃ added,
        w.image.routines = ((UnitBuilder.new {} "unit" "source"
          true).after interleavedUnit).image.routines ++ added ∧
        added.map RoutineRecord.member = [(("$getString" : Text), ("(I)T" : Text))] := by
  let start := UnitBuilder.new {} "unit" "source" true
  have hrun : Build.finish.run' (start.after interleavedUnit) = some () := by decide +kernel
  obtain ⟨w, hw⟩ := exists_of_run' hrun
  obtain ⟨-, -, hloads, added, hroutines, hadded⟩ := Build.finish_fetches hw
  refine ⟨w, hw, ?_, added, hroutines, hadded.trans (by decide +kernel)⟩
  let before := interleavedUnit.take 8
  let mid := (interleavedUnit.drop 9).take 4
  let loading : List UnitRequest := before ++ .loadConstant 1 (.string "text") :: mid
  have hload : (Build.loadConstant 1 (.string "text")).run' (start.after before) = some () := by
    decide +kernel
  have hend : (Build.endRoutine 1).run' (start.after loading) = some () := by decide +kernel
  obtain ⟨u, hu⟩ := exists_of_run' hload
  obtain ⟨v, hv⟩ := exists_of_run' hend
  obtain ⟨r, record, code, hr, hrecord, hmember, hdecode, hfetches⟩ :=
    hloads before mid [.endRoutine 0] 1 (.string "text") u v rfl hu hv
  have hnow : ((start.after before).routines[1]?).map
      (fun r => (r.name, r.signature.descriptor, r.assembler.instructions.length)) =
        some (("second" : Text), ("()T" : Text), 0) := by decide +kernel
  rw [hr, Option.map_some, Option.some.injEq, Prod.mk.injEq, Prod.mk.injEq] at hnow
  obtain ⟨hname, hdescriptor, hlength⟩ := hnow
  rw [hname, hdescriptor] at hmember
  rw [hlength] at hfetches
  exact ⟨record, code, hrecord, hmember, hdecode, hfetches⟩

end Bytecode
