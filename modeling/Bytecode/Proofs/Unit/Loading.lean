import Mathlib
import Bytecode.Proofs.Assembly.Progress
import Bytecode.Proofs.Constant.Interning
import Bytecode.Proofs.Unit.Constants

/-!
# Constants that could not be loaded

Loading a constant goes through three tables: the constant is pooled and its accessor asked for,
then the index is pushed, then the symbol of the accessor is found. Whether the routine takes
instructions at all is looked at by the push, when the pool has taken the constant already, and
nothing is taken back. So a load that is rejected changes nothing only when the pool itself rejects
it, or when the routine does and the pool knew the constant and its accessor before.

## Main definitions

* `UnitBuilder.Loadable`: nothing rejects the constant
* `UnitBuilder.Unloaded`: how a load that is rejected leaves the unit
* `UnitBuilder.SameContents`: constants, accessors, symbols and routines are the same

## Main results

* `Build.ends_loadConstant_unloaded`: how a load is rejected
* `Build.loadConstant_rejected`: when a rejected load has changed nothing
* `Build.loadConstant_after_end`: a unit whose constants change after it has ended
-/

namespace Bytecode

/-! ### Accessors that were asked for -/

namespace Pool

variable {p q : Pool}

theorem mem_accessors {t : ValueType} : t ∈ p.accessors ↔ t ∈ p.requested := by
  have hall : t ∈ ValueType.all := by cases t <;> decide
  rw [accessors, List.mem_filter, List.contains_iff_mem, and_iff_right hall]

/-- Asking for an accessor makes no difference exactly when it was asked for before. -/
theorem accessors_eq_iff {t : ValueType} (h : q.requested = t :: p.requested) :
    q.accessors = p.accessors ↔ t ∈ p.accessors := by
  constructor
  · intro hsame
    rw [← hsame, mem_accessors, h]
    exact List.mem_cons_self
  · intro ht
    refine List.filter_congr fun t' _ => ?_
    rw [Bool.eq_iff_iff, List.contains_iff_mem, List.contains_iff_mem, h, List.mem_cons]
    refine or_iff_right_of_imp ?_
    rintro rfl
    exact mem_accessors.mp ht

end Pool

theorem UnitBuilder.Course.pool_indexed {u v : UnitBuilder} (h : u.Course v)
    (hu : u.pool.Indexed) : v.pool.Indexed := by
  induction h with
  | refl => exact hu
  | step _ hstep ih => exact hstep.pool_eq ▸ ih
  | intern _ hpool ih => exact ih.intern hpool
  | request _ hpool ih =>
    obtain ⟨-, rfl⟩ := Pool.request_eq_ok_iff.mp hpool
    exact ih

/-! ### How a load is rejected -/

/-- The routine takes instructions. -/
def Routine.IsLive (r : Routine) : Prop :=
  r.assembler.isOpen = true ∧ r.assembler.reachable = true

/-- The code with an index pushed and taken again, of which only the push is written. -/
def Assembler.strayIndex (a : Assembler) (index : Nat) : Assembler :=
  { a.append ⟨.pushInt, index.toInt32⟩ with stack := (a.stack.pushed .int).popped }

namespace UnitBuilder

/-- The text by which code refers to the accessor of a type. -/
def accessorText (u : UnitBuilder) (t : ValueType) : Except Error Text := do
  let name ← Pool.accessorName t
  let signature ← Pool.accessorSignature t
  return SymbolTable.member u.name name signature.descriptor

/-- There is a symbol for the accessor of a type, or room for one. -/
def Refers (u : UnitBuilder) (t : ValueType) : Prop :=
  ∃ text, u.accessorText t = .ok text ∧ Succeeds (u.symbols.intern text)

/-- Nothing rejects the constant: the pool takes it, the routine takes instructions, and there is
room for the symbol of its accessor. -/
structure Loadable (u : UnitBuilder) (r : Routine) (c : Constant) : Prop where
  pooled : Succeeds (u.pool.intern c)
  live : r.IsLive
  refers : u.Refers c.type

/-- **How a load that is rejected leaves the unit**, by what rejects it. -/
inductive Unloaded (u : UnitBuilder) (id : Nat) (r : Routine) (c : Constant) : UnitBuilder → Prop
  /-- The pool does not take the constant, and nothing has changed. -/
  | full (hpool : ¬ Succeeds (u.pool.intern c)) : Unloaded u id r c u
  /-- The routine takes no instruction, but the pool has taken the constant. -/
  | shut (hpool : Succeeds (u.pool.intern c)) (hshut : ¬ r.IsLive) :
      Unloaded u id r c { u with pool := u.pool.after (.loadConstant id c) }
  /-- There is no room for the symbol, but the pool has taken the constant and its index is pushed
  in the code. -/
  | unlinked {index : Nat} {pool : Pool} (hpool : u.pool.intern c = .ok (index, pool))
      (hlive : r.IsLive) (hrefers : ¬ u.Refers c.type) :
      Unloaded u id r c (putBack { u with pool := u.pool.after (.loadConstant id c) } id
        ⟨r.assembler.strayIndex index, u.symbols⟩)

theorem putBack_self {u : UnitBuilder} {id : Nat} {r : Routine} (hr : u.routines[id]? = some r) :
    u.putBack id ⟨r.assembler, u.symbols⟩ = u := by
  have hsame : (u.routines.modify id fun r' => { r' with assembler := r.assembler }) =
      u.routines := modify_eq_self hr rfl
  rw [putBack, hsame]

end UnitBuilder

namespace Emit

variable {s : Assembly}

/-- An instruction in a routine that takes none. -/
theorem ends_emission_shut (e : Emission)
    (h : ¬ (s.assembler.isOpen = true ∧ s.assembler.reachable = true)) :
    Ends (emission e) s (fun _ _ => False) fun _ t => t = s :=
  Ends.bind (ends_guard (fun _ => rfl) fun hopen hreach => (h ⟨hopen, hreach⟩).elim)

theorem ends_pushInt {value : Int32} {post : Unit → Assembly → Prop}
    {fail : Error → Assembly → Prop} (hopen : s.assembler.isOpen = true)
    (hreach : s.assembler.reachable = true)
    (h : post () ⟨{ s.assembler.append ⟨.pushInt, value⟩ with
      stack := s.assembler.stack.pushed .int }, s.symbols⟩) :
    Ends (emission (.pushInt value)) s post fail :=
  Ends.bind (Ends.of_ok (guard_eq _ hopen hreach)
    (Ends.bind (ends_write (ends_push (by decide) h))))

/-- A reference is interned, or there is no room for it. -/
theorem ends_intern_of {text : Text} {post : UInt16 → Assembly → Prop}
    {fail : Error → Assembly → Prop} (hfail : ¬ Succeeds (s.symbols.intern text) → ∀ e, fail e s)
    (h : ∀ symbol symbols, s.symbols.intern text = .ok (symbol, symbols) →
      post symbol { s with symbols }) : Ends (intern text) s post fail := by
  unfold Ends intern
  cases hi : s.symbols.intern text with
  | error e => exact hfail (exists_error_iff.mp ⟨e, hi⟩) e
  | ok found => exact h found.1 found.2 hi

/-- A call with an index on the stack is rejected only when there is no room for its symbol. -/
theorem ends_invoke_index {owner name : Text} {result : ValueType} {rest : List ValueType}
    (hresult : result ≠ .void) (hopen : s.assembler.isOpen = true)
    (hreach : s.assembler.reachable = true) (htypes : s.assembler.stack.types = .int :: rest) :
    let signature : Signature := { result, params := [.int] }
    let text := SymbolTable.member owner name signature.descriptor
    Ends (emission (.invoke owner name signature)) s (fun _ _ => Succeeds (s.symbols.intern text))
      fun _ t => ¬ Succeeds (s.symbols.intern text) ∧ t = s.setStack s.assembler.stack.popped := by
  intro signature text
  refine Ends.bind (Ends.of_ok (guard_eq _ hopen hreach) (Ends.bind (Ends.bind ?_)))
  refine Ends.of_ok (pop_eq htypes (by decide)) (Ends.pure (Ends.bind ?_))
  refine ends_intern_of (fun hroom _ => ⟨hroom, rfl⟩) fun symbol symbols hsymbol => ?_
  refine Ends.bind (ends_write ?_)
  have hvoid : ¬ (signature.result == .void) = true := by simpa [signature] using hresult
  rw [if_neg hvoid]
  exact ends_push hresult ⟨_, hsymbol⟩

end Emit

namespace Build

open UnitBuilder

variable {u : UnitBuilder} {id : Nat} {r : Routine} {c : Constant}

/-- A load into a routine that takes no instruction. -/
theorem ends_fetch_shut {index : Nat} {t : ValueType} (hr : u.routines[id]? = some r)
    (hshut : ¬ r.IsLive) :
    Ends (do
      emission id (.pushInt index.toInt32)
      let name ← ofExcept (Pool.accessorName t)
      let signature ← ofExcept (Pool.accessorSignature t)
      emission id (.invoke (← get).name name signature)) u (fun _ _ => False) fun _ v => v = u := by
  have hrejected := Emit.ends_emission_shut (s := ⟨r.assembler, u.symbols⟩)
    (.pushInt index.toInt32) hshut
  refine Ends.bind (ends_onRoutine_of_some hr (hrejected.mono (fun _ _ => False.elim) ?_))
  rintro - s rfl
  exact putBack_self hr

/-- A load into a routine that takes instructions. -/
theorem ends_fetch_live {index : Nat} {t : ValueType} (ht : t.isPoolable = true)
    (hr : u.routines[id]? = some r) (hlive : r.IsLive) :
    Ends (do
      emission id (.pushInt index.toInt32)
      let name ← ofExcept (Pool.accessorName t)
      let signature ← ofExcept (Pool.accessorSignature t)
      emission id (.invoke (← get).name name signature)) u (fun _ _ => u.Refers t)
      fun _ v => ¬ u.Refers t ∧ v = u.putBack id ⟨r.assembler.strayIndex index, u.symbols⟩ := by
  obtain ⟨accessor, haccessor, hsignature⟩ := Pool.exists_accessor ht
  have htext : u.accessorText t = .ok (SymbolTable.member u.name accessor
      (Signature.descriptor { result := t, params := [.int] })) := by
    rw [accessorText, haccessor, hsignature]
    rfl
  rw [haccessor, hsignature]
  refine Ends.bind (ends_onRoutine_of_some hr (Emit.ends_pushInt hlive.1 hlive.2 ?_))
  refine Ends.bind (Ends.pure (Ends.bind (Ends.pure (Ends.bind (Ends.get ?_)))))
  refine ends_onRoutine_of_some (getElem?_putBack hr) ?_
  have hvoid : t ≠ .void := by
    rintro rfl
    cases ht
  refine (Emit.ends_invoke_index hvoid hlive.1 hlive.2 rfl).mono ?_ ?_
  · intro _ _ hsymbol
    exact ⟨_, htext, hsymbol⟩
  · rintro _ _ ⟨hroom, rfl⟩
    refine ⟨?_, ?_⟩
    · rintro ⟨text, htext', hsymbol⟩
      rw [htext] at htext'
      cases htext'
      exact hroom hsymbol
    · -- the routine is put back twice, the second time as a whole
      simp only [putBack, modify_modify]
      rfl

/-- **How a load is rejected**: by the pool, by the routine or by the symbol table, and not at all
when none of them does. -/
theorem ends_loadConstant_unloaded (hr : u.routines[id]? = some r) :
    Ends (loadConstant id c) u (fun _ _ => u.Loadable r c) fun _ v => u.Unloaded id r c v := by
  cases hintern : u.pool.intern c with
  | error e =>
    have hrun : intern c u = .error e u := by simp only [intern, hintern]
    exact Ends.bind (Ends.of_error hrun (.full (exists_error_iff.mp ⟨e, hintern⟩)))
  | ok found =>
    obtain ⟨index, pool⟩ := found
    have hrun : intern c u = .ok index { u with pool } := by simp only [intern, hintern]
    -- from here on, the pool is the one that is left
    let v : UnitBuilder := { u with pool := u.pool.after (.loadConstant id c) }
    have hrequest : request c.type { u with pool } = .ok () v := by
      simp only [v, request_of_isPoolable c.isPoolable_type, Pool.after, hintern]
    have hv : v.routines[id]? = some r := hr
    refine Ends.bind (Ends.of_ok hrun (Ends.bind (Ends.of_ok hrequest ?_)))
    by_cases hlive : r.IsLive
    · refine (ends_fetch_live c.isPoolable_type hv hlive).mono ?_ ?_
      · intro _ _ hrefers
        exact ⟨⟨_, hintern⟩, hlive, hrefers⟩
      · rintro _ _ ⟨hrefers, rfl⟩
        exact .unlinked hintern hlive hrefers
    · refine (ends_fetch_shut hv hlive).mono (fun _ _ => False.elim) ?_
      rintro _ _ rfl
      exact .shut ⟨_, hintern⟩ hlive

end Build

/-! ### What a rejected load has changed -/

namespace UnitBuilder

variable {u v : UnitBuilder} {id : Nat} {r : Routine} {c : Constant}

/-- Constants, accessors, symbols and routines are the same, the code and the stacks of the routines
included. -/
structure SameContents (u v : UnitBuilder) : Prop where
  entries_eq : v.pool.entries = u.pool.entries
  accessors_eq : v.pool.accessors = u.pool.accessors
  symbols_eq : v.symbols = u.symbols
  routines_eq : v.routines = u.routines

/-- A pool that has taken a constant is the same as before when it held the constant and knew of its
accessor. -/
theorem sameContents_pool_iff (hp : u.pool.Sound) (hindexed : u.pool.Indexed)
    (hpool : Succeeds (u.pool.intern c)) :
    u.SameContents { u with pool := u.pool.after (.loadConstant id c) } ↔
      u.pool.Holds c ∧ c.type ∈ u.pool.accessors := by
  obtain ⟨⟨index, pool⟩, hintern⟩ := hpool
  have hafter : u.pool.after (.loadConstant id c) =
      { pool with requested := c.type :: pool.requested } := by simp only [Pool.after, hintern]
  have hrequested : (u.pool.after (.loadConstant id c)).requested =
      c.type :: u.pool.requested := by rw [hafter, Pool.requested_of_intern hintern]
  have hentries : (u.pool.after (.loadConstant id c)).entries = pool.entries := by rw [hafter]; rfl
  rw [← Pool.entries_eq_iff_holds hp hindexed hintern, ← Pool.accessors_eq_iff hrequested,
    ← hentries]
  constructor
  · intro h
    exact ⟨h.entries_eq, h.accessors_eq⟩
  · rintro ⟨hentries, haccessors⟩
    exact ⟨hentries, haccessors, rfl, rfl⟩

/-- When a rejected load has changed nothing. -/
theorem Unloaded.sameContents_iff (h : u.Unloaded id r c v) (hr : u.routines[id]? = some r)
    (hp : u.pool.Sound) (hindexed : u.pool.Indexed) :
    u.SameContents v ↔ ¬ Succeeds (u.pool.intern c) ∨
      (¬ r.IsLive ∧ u.pool.Holds c ∧ c.type ∈ u.pool.accessors) := by
  cases h with
  | full hpool => exact iff_of_true ⟨rfl, rfl, rfl, rfl⟩ (.inl hpool)
  | shut hpool hshut =>
    rw [sameContents_pool_iff hp hindexed hpool, or_iff_right (not_not.mpr hpool),
      and_iff_right hshut]
  | @unlinked index pool hpool hlive hrefers =>
    refine iff_of_false ?_ ?_
    · -- the code has grown by the push
      intro hsame
      have hstray := Build.getElem?_putBack (s := ⟨r.assembler.strayIndex index, u.symbols⟩)
        (u := { u with pool := u.pool.after (.loadConstant id c) }) hr
      rw [hsame.routines_eq, hr, Option.some_inj] at hstray
      have hsize : r.assembler.size = r.assembler.size + 5 :=
        congrArg (fun r => r.assembler.size) hstray
      omega
    · rintro (hfull | ⟨hshut, -⟩)
      · exact hfull ⟨_, hpool⟩
      · exact hshut hlive

end UnitBuilder

/-- **A rejected load may have changed the unit.** Whatever was asked of a unit before, a constant
is loaded into one of its routines unless the pool, the routine or the symbol table rejects it, and
the unit is left as the one says that does. Constants, accessors, symbols and code are as they were
exactly when a count of the constant does not fit, when the pool is full and does not hold the
constant, or when the routine takes no instruction and the pool has held the constant and known of
its accessor before. In which phase the routine or the unit is makes no difference. -/
theorem Build.loadConstant_rejected (context : Context) (name source : Text) (strict : Bool)
    (requests : List UnitRequest) (id : Nat) (c : Constant) {r : Routine}
    (hr : ((UnitBuilder.new context name source strict).after requests).routines[id]? = some r) :
    let u := (UnitBuilder.new context name source strict).after requests
    Ends (Build.loadConstant id c) u (fun _ _ => u.Loadable r c) fun _ v =>
      u.Unloaded id r c v ∧ (u.SameContents v ↔ ¬ c.Countable ∨
        (u.pool.size = 65535 ∧ ¬ u.pool.Holds c) ∨
        (¬ r.IsLive ∧ u.pool.Holds c ∧ c.type ∈ u.pool.accessors)) := by
  intro u
  have hcourse : (UnitBuilder.new context name source strict).Course u :=
    UnitBuilder.course_after _ requests
  have hp : u.pool.Sound := hcourse.pool_sound (.empty name)
  have hindexed : u.pool.Indexed := hcourse.pool_indexed (.empty name)
  have hfull : ¬ (u.pool.Holds c ∨ u.pool.size < 65535) ↔
      u.pool.size = 65535 ∧ ¬ u.pool.Holds c := by
    have hsize := hp.size_le
    rw [not_or, and_comm, Nat.not_lt]
    exact and_congr_left fun _ => ⟨fun hge => le_antisymm hsize hge, fun heq => heq.ge⟩
  refine (Build.ends_loadConstant_unloaded hr).mono (fun _ _ h => h) fun _ v hv => ⟨hv, ?_⟩
  rw [hv.sameContents_iff hr hp hindexed, Pool.succeeds_intern_iff hp hindexed, not_and_or, hfull,
    or_assoc]

/-- A constant that was loaded before is rejected without a trace when its routine has ended. -/
theorem Build.loadConstant_rejected_again : ∃ r e v,
    ((UnitBuilder.new {} "unit" "source" true).after interleavedUnit).routines[1]? = some r ∧
    Build.loadConstant 1 (.string "text")
      ((UnitBuilder.new {} "unit" "source" true).after interleavedUnit) = .error e v ∧
    ((UnitBuilder.new {} "unit" "source" true).after interleavedUnit).SameContents v := by
  have hknown : (((UnitBuilder.new {} "unit" "source" true).after interleavedUnit).routines[1]?).map
      (·.assembler.isOpen) = some false := by decide +kernel
  have hrun : (Build.loadConstant 1 (.string "text")).run'
      ((UnitBuilder.new {} "unit" "source" true).after interleavedUnit) = none := by decide +kernel
  have hencodings : ((UnitBuilder.new {} "unit" "source" true).after
      interleavedUnit).pool.entries.map Constant.encode = [Constant.encode (.string "text")] := by
    decide +kernel
  have haccessors : ((UnitBuilder.new {} "unit" "source" true).after
      interleavedUnit).pool.accessors = [.string] := by decide +kernel
  -- the unit is not to be evaluated again
  generalize interleavedUnit = requests at *
  obtain ⟨r, hr, hclosed⟩ := Option.map_eq_some_iff.mp hknown
  obtain ⟨e, v, hload⟩ := exists_of_run'_eq_none hrun
  obtain ⟨-, hsame⟩ := (Build.loadConstant_rejected {} "unit" "source" true requests 1
    (.string "text") hr).error hload
  have hshut : ¬ r.IsLive := by
    rintro ⟨hopen, -⟩
    rw [hclosed] at hopen
    cases hopen
  have hholds : ((UnitBuilder.new {} "unit" "source" true).after requests).pool.Holds
      (.string "text") := by
    refine List.mem_map.mp ?_
    rw [hencodings]
    exact List.mem_cons_self
  refine ⟨r, e, v, hr, hload, hsame.mpr (.inr (.inr ⟨hshut, hholds, ?_⟩))⟩
  rw [haccessors]
  exact List.mem_cons_self

/-- A unit with one routine, ended. -/
def endedUnit : List UnitRequest :=
  [.begin, .routine (Flags.ofList [.isStatic]) "r" { result := .void }, .beginRoutine 0,
    .onRoutine 0 (.emission .returnVoid), .endRoutine 0, .finish]

/-- A constant that is loaded into a routine of an ended unit is rejected, but it is in the pool of
the unit from then on, and its accessor is asked for. -/
theorem Build.loadConstant_after_end :
    let u := (UnitBuilder.new {} "u" "s" false).after endedUnit
    u.phase = .ended ∧ u.pool.entries.map Constant.encode = [] ∧ u.pool.accessors = [] ∧
      ∃ e v, Build.loadConstant 0 (.string "x") u = .error e v ∧
        v.pool.entries.map Constant.encode = [Constant.encode (.string "x")] ∧
        v.pool.accessors = [.string] := by
  intro u
  have hrun : (Build.loadConstant 0 (.string "x")).run' u = none := by decide +kernel
  obtain ⟨e, v, hload⟩ := exists_of_run'_eq_none hrun
  have hpool : v.pool = u.pool.after (.loadConstant 0 (.string "x")) :=
    (Build.ends_loadConstant_pool 0 (.string "x")).error hload
  refine ⟨by decide +kernel, by decide +kernel, by decide +kernel, e, v, hload, ?_, ?_⟩
  · rw [hpool]
    decide +kernel
  · rw [hpool]
    decide +kernel

end Bytecode
