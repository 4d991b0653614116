import Mathlib
import Bytecode.Proofs.Unit.Rollback
import Bytecode.Proofs.Unit.Routines

/-!
# Construction of units

What holds of a unit at every moment of its construction, also after steps that failed: its routines
are sound, their identities differ, and every record that was kept is that of a sound routine which
has ended. A step is safe when it keeps this, whichever way it ends; safe steps in sequence are
safe.

## Main definitions

* `UnitBuilder.Sound`: what every step keeps
* `Build.Safe`: a step that keeps a unit sound, and its names
* `UnitRequest`, `Build.perform`: what can be asked of a unit
* `UnitBuilder.after`: the unit after requests of which some may have failed

## Main results

* `Build.safe_perform`: every request is safe, a void field apart
* `UnitBuilder.evolves_after`: a unit is sound after any requests
-/

namespace Bytecode

/-- What a unit is called by. -/
structure UnitHeader where
  name : Text
  source : Text
  strict : Bool

namespace UnitBuilder

def header (u : UnitBuilder) : UnitHeader := ⟨u.name, u.source, u.strict⟩

/-- A record that was kept for a routine: the routine has ended, and it was sound when it did. -/
structure Kept (routines : Array Routine) (symbolCount id : Nat) (record : RoutineRecord) :
    Prop where
  ended : ∃ r, routines[id]? = some r ∧ r.phase = .ended ∧ r.identity = record.identity
  sound : ∃ r : Routine, r.Sound symbolCount ∧ r.record = .ok record

/-- What every step of construction keeps. -/
structure Sound (u : UnitBuilder) : Prop where
  symbols : u.symbols.Sound
  fields : ∀ f ∈ u.fields.toList, f.type ≠ .void
  routines : ∀ (id : Nat) r, u.routines[id]? = some r → r.Sound u.symbols.size
  registered : ∀ (id : Nat) r, u.routines[id]? = some r → r.identity ∈ u.identities
  distinct : ∀ (id id' : Nat) r r', u.routines[id]? = some r → u.routines[id']? = some r' →
    r.identity = r'.identity → id = id'
  finished : ∀ record ∈ u.finished.toList, ∃ id, Kept u.routines u.symbols.size id record
  /-- No routine has two records. -/
  nodup : u.entryPoints.Nodup

/-- What a step of construction does not take back. -/
structure Evolves (u v : UnitBuilder) : Prop where
  sound : v.Sound
  header_eq : v.header = u.header

theorem Evolves.refl {u : UnitBuilder} (h : u.Sound) : u.Evolves u := ⟨h, rfl⟩

theorem Evolves.trans {u v w : UnitBuilder} (h : u.Evolves v) (h' : v.Evolves w) : u.Evolves w :=
  ⟨h'.sound, h'.header_eq.trans h.header_eq⟩

/-- The parts of a unit on which its soundness does not depend. -/
theorem Sound.frame {u : UnitBuilder} (h : u.Sound) (context : Context) (phase : Phase)
    (pool : Pool) (openRoutines : List Nat) (bytes : Bytes) :
    Sound { u with context, phase, pool, openRoutines, bytes } :=
  ⟨h.symbols, h.fields, h.routines, h.registered, h.distinct, h.finished, h.nodup⟩

theorem Kept.mono {routines routines' : Array Routine} {n m id : Nat} {record : RoutineRecord}
    (h : Kept routines n id record) (hnm : n ≤ m)
    (hroutines : ∀ r, routines[id]? = some r → r.phase = .ended →
      ∃ r', routines'[id]? = some r' ∧ r'.phase = .ended ∧ r'.identity = r.identity) :
    Kept routines' m id record := by
  obtain ⟨⟨r, hr, hended, hidentity⟩, r₀, hsound, hrecord⟩ := h
  obtain ⟨r', hr', hended', hidentity'⟩ := hroutines r hr hended
  exact ⟨⟨r', hr', hended', hidentity'.trans hidentity⟩, r₀, hsound.mono hnm, hrecord⟩

/-- A routine may change as long as it stays sound, keeps its identity and does not start again,
and symbols may come along with that. -/
theorem Sound.modify {u : UnitBuilder} (h : u.Sound) {id : Nat} {f : Routine → Routine}
    {symbols : SymbolTable} (hsymbols : symbols.Sound)
    (hgrown : u.symbols.entries <+: symbols.entries)
    (hf : ∀ r, u.routines[id]? = some r → (f r).Sound symbols.size ∧
      (f r).identity = r.identity ∧ (r.phase = .ended → (f r).phase = .ended)) :
    Sound { u with routines := u.routines.modify id f, symbols } := by
  have hsize : u.symbols.size ≤ symbols.size := SymbolTable.size_le_of_prefix hgrown
  -- every routine after the change comes from one before it
  have hback : ∀ (k : Nat) r', (u.routines.modify id f)[k]? = some r' →
      ∃ r, u.routines[k]? = some r ∧ r'.identity = r.identity ∧ r'.Sound symbols.size := by
    intro k r' hr'
    rw [Array.getElem?_modify] at hr'
    split at hr'
    · next hid =>
      subst hid
      obtain ⟨r, hr, rfl⟩ := Option.map_eq_some_iff.mp hr'
      obtain ⟨hsound, hidentity, -⟩ := hf r hr
      exact ⟨r, hr, hidentity, hsound⟩
    · exact ⟨r', hr', rfl, (h.routines k r' hr').mono hsize⟩
  refine ⟨hsymbols, h.fields, ?_, ?_, ?_, ?_, h.nodup⟩
  · intro k r' hr'
    obtain ⟨-, -, -, hsound⟩ := hback k r' hr'
    exact hsound
  · intro k r' hr'
    obtain ⟨r, hr, hidentity, -⟩ := hback k r' hr'
    exact hidentity ▸ h.registered k r hr
  · intro k k' r' s' hr' hs' heq
    obtain ⟨r, hr, hidentity, -⟩ := hback k r' hr'
    obtain ⟨s, hs, hidentity', -⟩ := hback k' s' hs'
    exact h.distinct k k' r s hr hs (hidentity ▸ hidentity' ▸ heq)
  · -- a routine with a record has ended, and it does not start again
    intro record hmem
    obtain ⟨k, hkept⟩ := h.finished record hmem
    refine ⟨k, hkept.mono hsize fun r hr hended => ?_⟩
    rw [Array.getElem?_modify]
    split
    · next hid =>
      subst hid
      obtain ⟨-, hidentity, hphase⟩ := hf r hr
      exact ⟨f r, by rw [hr, Option.map_some], hphase hended, hidentity⟩
    · exact ⟨r, hr, hended, rfl⟩

theorem Sound.setSymbols {u : UnitBuilder} (h : u.Sound) {symbols : SymbolTable}
    (hsymbols : symbols.Sound) (hgrown : u.symbols.entries <+: symbols.entries) :
    Sound { u with symbols } := by
  have hsize : u.symbols.size ≤ symbols.size := SymbolTable.size_le_of_prefix hgrown
  refine ⟨hsymbols, h.fields, fun k r hr => (h.routines k r hr).mono hsize, h.registered,
    h.distinct, fun record hmem => ?_, h.nodup⟩
  obtain ⟨k, hkept⟩ := h.finished record hmem
  exact ⟨k, hkept.mono hsize fun r hr hended => ⟨r, hr, hended, rfl⟩⟩

theorem Sound.insertField {u : UnitBuilder} (h : u.Sound) {f : Field} (hf : f.type ≠ .void) :
    Sound { u with fields := u.fields.insert f } := by
  refine ⟨h.symbols, fun g hg => ?_, h.routines, h.registered, h.distinct, h.finished, h.nodup⟩
  cases htaken : u.fields.contains f.name with
  | true =>
    have hsame : u.fields.insert f = u.fields := by simp [FieldTable.insert, htaken]
    exact h.fields g (hsame ▸ hg)
  | false =>
    rw [FieldTable.toList_insert htaken, List.mem_append, List.mem_singleton] at hg
    rcases hg with hg | rfl
    · exact h.fields g hg
    · exact hf

/-- A routine with a new identity. -/
theorem Sound.push {u : UnitBuilder} (h : u.Sound) {r : Routine} (hr : r.Sound u.symbols.size)
    (hnew : r.identity ∉ u.identities) :
    Sound { u with
      routines := u.routines.push r
      identities := u.identities.insert r.identity } := by
  refine ⟨h.symbols, h.fields, ?_, ?_, ?_, ?_, h.nodup⟩
  · intro k r' hr'
    rcases getElem?_push_cases hr' with hr' | ⟨-, rfl⟩
    · exact h.routines k r' hr'
    · exact hr
  · intro k r' hr'
    rw [Std.TreeSet.mem_insert]
    rcases getElem?_push_cases hr' with hr' | ⟨-, rfl⟩
    · exact .inr (h.registered k r' hr')
    · exact .inl Std.ReflCmp.compare_self
  · intro k k' r' s' hr' hs' heq
    -- two routines of one identity are not an old and the new one
    rcases getElem?_push_cases hr' with hrold | ⟨rfl, rfl⟩ <;>
      rcases getElem?_push_cases hs' with hsold | ⟨rfl, rfl⟩
    · exact h.distinct k k' r' s' hrold hsold heq
    · exact absurd (heq ▸ h.registered k r' hrold) hnew
    · exact absurd (heq ▸ h.registered k' s' hsold) hnew
    · rfl
  · intro record hmem
    obtain ⟨k, hkept⟩ := h.finished record hmem
    exact ⟨k, hkept.mono le_rfl fun r' hr' hended => ⟨r', getElem?_push_of_some hr', hended, rfl⟩⟩

/-- A routine and the symbols of its unit make up a linked assembly. -/
theorem Sound.linked {u : UnitBuilder} (h : u.Sound) {id : Nat} {r : Routine}
    (hr : u.routines[id]? = some r) : Assembly.Linked ⟨r.assembler, u.symbols⟩ :=
  ⟨(h.routines id r hr).wellFormed, h.symbols, (h.routines id r hr).linked⟩

/-- A step of assembly in a routine. -/
theorem Sound.putBack {u : UnitBuilder} (h : u.Sound) {id : Nat} {r : Routine} {s : Assembly}
    (hr : u.routines[id]? = some r) (hs : Assembly.Evolves ⟨r.assembler, u.symbols⟩ s) :
    (u.putBack id s).Sound := by
  refine h.modify hs.linked.symbols hs.symbols_prefix fun r' hr' => ?_
  obtain rfl : r' = r := Option.some.inj (hr'.symm.trans hr)
  have hsound := h.routines id r' hr
  refine ⟨⟨hs.linked.wellFormed, hs.linked.within, ?_, hsound.noVoid, ?_⟩, rfl,
    fun hended => hended⟩
  · exact hs.returnType_eq.trans hsound.result_eq
  · exact hsound.room.trans hs.slots_le

/-- A record can be kept: it is that of a routine that has ended, and there is no other one of its
identity. -/
structure Ready (u : UnitBuilder) (id : Nat) (record : RoutineRecord) : Prop where
  sound : u.Sound
  kept : Kept u.routines u.symbols.size id record
  fresh : record.identity ∉ u.entryPoints

theorem Ready.frame {u : UnitBuilder} {id : Nat} {record : RoutineRecord} (h : u.Ready id record)
    (context : Context) : Ready { u with context } id record :=
  ⟨h.sound.frame context u.phase u.pool u.openRoutines u.bytes, h.kept, h.fresh⟩

theorem Ready.keep {u : UnitBuilder} {id : Nat} {record : RoutineRecord} (h : u.Ready id record) :
    Sound { u with
      openRoutines := u.openRoutines.erase id
      finished := u.finished.push record } := by
  refine ⟨h.sound.symbols, h.sound.fields, h.sound.routines, h.sound.registered, h.sound.distinct,
    ?_, ?_⟩
  · intro other hmem
    rw [Array.toList_push, List.mem_append, List.mem_singleton] at hmem
    rcases hmem with hmem | rfl
    · exact h.sound.finished other hmem
    · exact ⟨id, h.kept⟩
  · rw [entryPoints, Array.toList_push, List.map_append, List.map_singleton]
    refine List.nodup_append.mpr ⟨h.sound.nodup, List.nodup_singleton _, ?_⟩
    rintro a ha b hb rfl
    exact h.fresh (List.mem_singleton.mp hb ▸ ha)

/-- A routine that has not ended has no record yet. -/
theorem Sound.identity_notMem_entryPoints {u : UnitBuilder} (h : u.Sound) {id : Nat} {r : Routine}
    (hr : u.routines[id]? = some r) (hphase : r.phase ≠ .ended) : r.identity ∉ u.entryPoints := by
  intro hmem
  -- a record of its identity would be that of a routine which has ended: of this one
  obtain ⟨record, hrecord, hidentity⟩ := List.mem_map.mp hmem
  obtain ⟨id', ⟨r', hr', hended, hidentity'⟩, -⟩ := h.finished record hrecord
  obtain rfl : id' = id := h.distinct id' id r' r hr' hr (hidentity'.trans hidentity)
  obtain rfl : r' = r := Option.some.inj (hr'.symm.trans hr)
  exact hphase hended

/-- The record of a routine can be kept once the routine is closed. -/
theorem Sound.ready {u : UnitBuilder} (h : u.Sound) {id : Nat} {r : Routine}
    {record : RoutineRecord} {s : Assembly} (hr : u.routines[id]? = some r)
    (hphase : r.phase ≠ .ended) (hrecord : r.record = .ok record)
    (hs : Assembly.Evolves ⟨r.assembler, u.symbols⟩ s) :
    Ready { u.putBack id s with
      routines := (u.putBack id s).routines.modify id fun r => { r with phase := .ended } }
      id record := by
  have hclosed : (u.putBack id s).Sound := h.putBack hr hs
  have hget : (u.putBack id s).routines[id]? = some { r with assembler := s.assembler } := by
    rw [UnitBuilder.putBack, Array.getElem?_modify, if_pos rfl, hr, Option.map_some]
  have hidentity : record.identity = r.identity :=
    Routine.RecordedAs.identity_eq ⟨r.assembler, hrecord⟩
  refine ⟨?_, ⟨?_, ?_⟩, ?_⟩
  · refine hclosed.modify hclosed.symbols List.prefix_rfl fun r' hr' => ⟨?_, rfl, fun _ => rfl⟩
    exact (hclosed.routines id r' hr').frame .ended r'.layout
  · refine ⟨{ r with assembler := s.assembler, phase := .ended }, ?_, rfl, hidentity.symm⟩
    rw [Array.getElem?_modify, if_pos rfl, hget, Option.map_some]
  · exact ⟨r, (h.routines id r hr).mono (SymbolTable.size_le_of_prefix hs.symbols_prefix), hrecord⟩
  · rw [hidentity]
    exact h.identity_notMem_entryPoints hr hphase

end UnitBuilder

namespace Build

open UnitBuilder

variable {α β : Type}

/-- A step that keeps a unit sound, and its names, whichever way it ends. -/
def Safe (m : Build α) : Prop :=
  ∀ u : UnitBuilder, u.Sound → Ends m u (fun _ v => u.Evolves v) (fun _ v => u.Evolves v)

theorem Safe.pure (x : α) : Safe (Pure.pure x) := fun _ hu => .refl hu

/-- A safe step goes on where others have come to. -/
theorem Safe.ends_of_evolves {m : Build α} (hm : Safe m) {u v : UnitBuilder} (hv : u.Evolves v) :
    Ends m v (fun _ w => u.Evolves w) (fun _ w => u.Evolves w) :=
  (hm v hv.sound).mono (fun _ _ hw => hv.trans hw) fun _ _ hw => hv.trans hw

theorem Safe.bind {m : Build α} {f : α → Build β} (hm : Safe m) (hf : ∀ x, Safe (f x)) :
    Safe (m >>= f) := by
  intro u hu
  exact Ends.bind ((hm u hu).mono (fun x _ hv => (hf x).ends_of_evolves hv) fun _ _ hv => hv)

theorem Safe.map {m : Build α} (f : α → β) (hm : Safe m) : Safe (f <$> m) :=
  fun u hu => Ends.map (hm u hu)

theorem Safe.throw (e : Error) : Safe (throw e : Build α) := fun _ hu => .refl hu

theorem safe_get : Safe (get : Build UnitBuilder) := fun _ hu => .refl hu

theorem safe_refuse (fault : UnitFault) : Safe (refuse fault : Build α) := fun _ hu => .refl hu

theorem safe_ofExcept (x : Except Error α) : Safe (ofExcept x) := by
  cases x with
  | ok x => exact .pure x
  | error e => exact .throw e

theorem safe_report (f : Context → Context) : Safe (report f) := fun u hu =>
  ⟨hu.frame (f u.context) u.phase u.pool u.openRoutines u.bytes, rfl⟩

theorem safe_requirePhase (operation : UnitOperation) : Safe (requirePhase operation) := by
  refine safe_get.bind fun u => ?_
  dsimp only
  split
  · exact .pure ()
  · exact safe_refuse _

/-- A safe step of assembly is a safe step of construction. -/
theorem safe_onRoutine (id : Nat) {step : Emit α} (hstep : Emit.Safe step) :
    Safe (onRoutine id step) := by
  intro u hu
  refine ends_onRoutine (fun _ => .refl hu) fun r hr => ?_
  exact (hstep _ (hu.linked hr)).mono (fun _ s hs => ⟨hu.putBack hr hs, rfl⟩)
    fun _ s hs => ⟨hu.putBack hr hs, rfl⟩

theorem safe_emission (id : Nat) (e : Emission) : Safe (emission id e) :=
  safe_onRoutine id (Emit.safe_emission e)

theorem safe_begin : Safe Build.begin := by
  refine (safe_requirePhase _).bind fun _ => safe_get.bind fun _ => ?_
  refine (safe_ofExcept _).bind fun _ => (safe_ofExcept _).bind fun _ => ?_
  exact fun u hu => ⟨hu.frame u.context .started u.pool u.openRoutines u.bytes, rfl⟩

theorem safe_field {f : Field} (hf : f.type ≠ .void) : Safe (field f) := by
  refine (safe_requirePhase _).bind fun _ => safe_get.bind fun _ => ?_
  refine (safe_ofExcept _).bind fun _ => ?_
  split
  · -- a name that is taken is refused, so what would come after does not matter
    exact (safe_refuse _).bind fun _ u hu => ⟨hu.insertField hf, rfl⟩
  · exact fun u hu => ⟨hu.insertField hf, rfl⟩

/-- A sound routine can be added in every unit. -/
theorem safe_add {r : Routine} (hr : ∀ symbolCount, r.Sound symbolCount) : Safe (add r) := by
  intro u hu
  refine ends_add.mono ?_ ?_
  · rintro - _ ⟨-, hnew, rfl⟩
    exact ⟨hu.push (hr _) hnew, rfl⟩
  · rintro - _ rfl
    exact .refl hu

theorem safe_routine (flags : Flags) (name : Text) (signature : Signature) :
    Safe (routine flags name signature) := by
  refine (safe_requirePhase _).bind fun _ => ?_
  intro u hu
  refine Ends.bind (ends_ofExcept (fun _ _ => .refl hu) fun r hr => ?_)
  exact safe_add (fun _ => (Routine.sound_synthetic hr).1) u hu

/-- A new layout does not matter for soundness. -/
theorem safe_setLayout (id : Nat) (layout : Layout) :
    Safe (updateRoutine id fun r => { r with layout }) := by
  intro u hu
  refine ⟨hu.modify hu.symbols List.prefix_rfl fun r hr => ⟨?_, rfl, fun hended => hended⟩, rfl⟩
  exact (hu.routines id r hr).frame r.phase layout

theorem safe_beginRoutine (id : Nat) : Safe (beginRoutine id) := by
  intro u hu
  refine Ends.bind (ends_getRoutine (fun _ => .refl hu) fun r hr => ?_)
  dsimp only
  split
  · next hphase =>
    refine Ends.bind (ends_requirePhase (fun _ _ => .refl hu) fun _ => ?_)
    refine Ends.bind (Ends.modify (Ends.bind (Ends.modify ?_)))
    -- only a routine that was not begun is begun, so none starts again
    have hbegun : u.Evolves { u with
        openRoutines := id :: u.openRoutines
        routines := u.routines.modify id fun r => { r with phase := .started } } := by
      have hopened := hu.frame u.context u.phase u.pool (id :: u.openRoutines) u.bytes
      refine ⟨hopened.modify hu.symbols List.prefix_rfl fun r' hr' => ?_, rfl⟩
      obtain rfl : r' = r := Option.some.inj (hr'.symm.trans hr)
      refine ⟨(hu.routines id r' hr).frame .started r'.layout, rfl, fun hended => ?_⟩
      rw [hended] at hphase
      cases hphase
    refine Safe.ends_of_evolves ?_ hbegun
    refine (safe_onRoutine id Emit.safe_openCode).bind fun _ => ?_
    cases r.attributes with
    | none => exact .pure ()
    | some a =>
      exact (safe_onRoutine id (Emit.safe_prologue a _ _)).bind fun layout =>
        safe_setLayout id layout
  · exact Ends.bind (Ends.throw (.refl hu))

theorem safe_openRoutine (name : Text) (a : Attributes) (paramCount scopeSize : Nat) :
    Safe (openRoutine name a paramCount scopeSize) := by
  have hopen : Safe (do
      let descriptor := (Signature.ofAttributes a paramCount).descriptor
      let routineName := (← get).uniqueName name descriptor
      let id ← add (← ofExcept (Routine.ofFunction routineName name a paramCount scopeSize))
      beginRoutine id
      return id) := by
    refine safe_get.bind fun _ u hu => ?_
    refine Ends.bind (ends_ofExcept (fun _ _ => .refl hu) fun r hr => ?_)
    have hadd : Safe (add r) := safe_add fun _ => (Routine.sound_ofFunction hr).1
    exact (hadd.bind fun id => (safe_beginRoutine id).bind fun _ => .pure id) u hu
  refine (safe_requirePhase _).bind fun _ => ?_
  dsimp only
  split
  · exact (Safe.throw _).bind fun _ => hopen
  · exact hopen

theorem safe_openFunction (f : Function) : Safe (openFunction f) :=
  (safe_ofExcept _).bind fun _ => safe_openRoutine _ _ _ _

theorem safe_loadConstants (id : Nat) : Safe (loadConstants id) :=
  safe_get.bind fun _ => safe_emission id _

/-- A step that changes nothing but the pool. -/
theorem evolves_setPool {u : UnitBuilder} (hu : u.Sound) (pool : Pool) :
    u.Evolves { u with pool } :=
  ⟨hu.frame u.context u.phase pool u.openRoutines u.bytes, rfl⟩

theorem safe_intern (c : Constant) : Safe (intern c) := by
  intro u hu
  refine ends_intern.mono ?_ ?_
  · rintro - _ ⟨pool, -, rfl⟩
    exact evolves_setPool hu pool
  · rintro - _ rfl
    exact .refl hu

theorem safe_request (t : ValueType) : Safe (Build.request t) := by
  intro u hu
  refine ends_request.mono ?_ ?_
  · rintro - _ ⟨pool, -, rfl⟩
    exact evolves_setPool hu pool
  · rintro - _ rfl
    exact .refl hu

theorem safe_symbol (text : Text) : Safe (symbol text) := by
  intro u hu
  refine ends_symbol.mono ?_ ?_
  · rintro i _ ⟨symbols, hfound, rfl⟩
    obtain ⟨hsound, -, hgrown⟩ := hu.symbols.intern hfound
    exact ⟨hu.setSymbols hsound hgrown, rfl⟩
  · rintro - _ rfl
    exact .refl hu

theorem safe_loadConstant (id : Nat) (c : Constant) : Safe (loadConstant id c) :=
  (safe_intern c).bind fun _ => (safe_request _).bind fun _ => (safe_emission id _).bind fun _ =>
    (safe_ofExcept _).bind fun _ => (safe_ofExcept _).bind fun _ => safe_get.bind fun _ =>
      safe_emission id _

theorem ends_keep {id : Nat} {record : RoutineRecord} {u : UnitBuilder} (h : u.Ready id record) :
    Ends (keep id record) u (fun _ v => u.Evolves v) (fun _ v => u.Evolves v) := by
  refine ends_keep_of (fun _ _ => .refl h.sound) fun _ _ => ?_
  exact ⟨h.keep.frame _ u.phase u.pool _ u.bytes, rfl⟩

theorem safe_endRoutine (id : Nat) : Safe (endRoutine id) := by
  intro u hu
  refine ends_endRoutine_of (fun _ _ => .refl hu) fun r record context hr hstarted hrecord _ => ?_
  have hphase : r.phase ≠ .ended := by
    rw [hstarted]
    decide
  have hclosed := (Emit.safe_close _ (hu.linked hr)).leaves
  have hready := hu.ready hr hphase hrecord hclosed
  exact (ends_keep (hready.frame context)).mono (fun _ _ hw => ⟨hw.sound, hw.header_eq⟩)
    fun _ _ hw => ⟨hw.sound, hw.header_eq⟩

/-! ### Accessors and the end of a unit -/

/-- A safe step keeps what a unit has become. -/
theorem Safe.keeps {m : Build α} (hm : Safe m) (u : UnitBuilder) : Keeps u.Evolves u.Evolves m :=
  fun _ hv => hm.ends_of_evolves hv

theorem safe_of_emits {id : Nat} {m : Build α} (hm : Emits id m) : Safe m := fun u hu =>
  hm u.Evolves u.Evolves (fun _ hv => hv) (fun e => (safe_emission id e).keeps u) u (.refl hu)

theorem safe_synthesize {flags : List Flag} {name : Text} {signature : Signature}
    {code : Nat → Build Unit} (hcode : ∀ id, Emits id (code id)) :
    Safe (synthesize flags name signature code) :=
  (safe_routine _ name signature).bind fun id => (safe_beginRoutine id).bind fun _ =>
    (safe_of_emits (hcode id)).bind fun _ => safe_endRoutine id

theorem safe_accessor (type : ValueType) : Safe (accessor type) := fun u hu =>
  keeps_accessor (fun _ hv => hv) (fun _ _ => (safe_report _).keeps u)
    (fun _ _ _ _ hcode => (safe_synthesize hcode).keeps u) type u (.refl hu)

theorem ends_assemble {u : UnitBuilder} (hu : u.Sound) :
    Ends assemble u (fun bytes v => u.Evolves v ∧ v.image.encode = .ok bytes)
      (fun _ v => u.Evolves v) :=
  ends_assemble_of_keeps (fun _ hv => hv) (fun type => (safe_accessor type).keeps u) (.refl hu)

/-- When a unit has ended, its bytes are those of its contents. -/
theorem ends_finish {u : UnitBuilder} (hu : u.Sound) :
    Ends finish u
      (fun _ v => u.Evolves v ∧ v.image.encode = .ok v.bytes ∧ v.phase = .ended)
      (fun _ v => u.Evolves v) := by
  refine ends_finish_restored.mono ?_ ?_
  · rintro - _ ⟨-, -, w, context, bytes, hassemble, rfl⟩
    obtain ⟨hw, hbytes⟩ := (ends_assemble hu).ok hassemble
    exact ⟨⟨hw.sound.frame context .ended w.pool w.openRoutines bytes, hw.header_eq⟩, hbytes, rfl⟩
  · -- a unit that could not be assembled is as it was, apart from what was reported
    rintro e _ ⟨context, identities, hmem, rfl⟩
    have hframe := hu.frame context u.phase u.pool u.openRoutines u.bytes
    exact ⟨{ hframe with registered := fun k r hr => (hmem _).mpr (hu.registered k r hr) }, rfl⟩

theorem safe_finish : Safe finish := fun _ hu =>
  (ends_finish hu).mono (fun _ _ hv => hv.1) fun _ _ hv => hv

end Build

/-! ### Runs -/

/-- What can be asked of a unit and of its routines. -/
inductive UnitRequest where
  | begin
  | finish
  | field (f : Field)
  | routine (flags : Flags) (name : Text) (signature : Signature)
  | staticInitializer
  | instanceInitializer (params : List ValueType)
  | openRoutine (name : Text) (a : Attributes) (paramCount scopeSize : Nat)
  | openFunction (f : Function)
  | beginRoutine (id : Nat)
  | endRoutine (id : Nat)
  | onRoutine (id : Nat) (r : Request)
  | loadConstants (id : Nat)
  | loadConstant (id : Nat) (c : Constant)
  | intern (c : Constant)
  | request (t : ValueType)
  | symbol (text : Text)

namespace Build

/-- Does what is asked. -/
def perform : UnitRequest → Build Unit
  | .begin => Build.begin
  | .finish => finish
  | .field f => field f
  | .routine flags name signature => discard (routine flags name signature)
  | .staticInitializer => discard staticInitializer
  | .instanceInitializer params => discard (instanceInitializer params)
  | .openRoutine name a paramCount scopeSize => discard (openRoutine name a paramCount scopeSize)
  | .openFunction f => discard (openFunction f)
  | .beginRoutine id => beginRoutine id
  | .endRoutine id => endRoutine id
  | .onRoutine id r => onRoutine id (Emit.request r)
  | .loadConstants id => loadConstants id
  | .loadConstant id c => loadConstant id c
  | .intern c => discard (intern c)
  | .request t => Build.request t
  | .symbol text => discard (symbol text)

/-- Every request is safe, but for a field of type void. -/
theorem safe_perform (r : UnitRequest) (h : ∀ f, r = .field f → f.type ≠ .void) :
    Safe (perform r) := by
  cases r with
  | begin => exact safe_begin
  | finish => exact safe_finish
  | field f => exact safe_field (h f rfl)
  | routine flags name signature => exact (safe_routine flags name signature).map _
  | staticInitializer => exact (safe_routine _ _ _).map _
  | instanceInitializer params => exact (safe_routine _ _ _).map _
  | openRoutine name a paramCount scopeSize =>
    exact (safe_openRoutine name a paramCount scopeSize).map _
  | openFunction f => exact (safe_openFunction f).map _
  | beginRoutine id => exact safe_beginRoutine id
  | endRoutine id => exact safe_endRoutine id
  | onRoutine id r => exact safe_onRoutine id (Emit.safe_request r)
  | loadConstants id => exact safe_loadConstants id
  | loadConstant id c => exact safe_loadConstant id c
  | intern c => exact (safe_intern c).map _
  | request t => exact safe_request t
  | symbol text => exact (safe_symbol text).map _

end Build

namespace UnitBuilder

/-- The unit after requests. A request that fails is given up, with what it has left behind. -/
def after (u : UnitBuilder) (requests : List UnitRequest) : UnitBuilder :=
  requests.foldl (fun u r => leaves (Build.perform r) u) u

theorem sound_new (context : Context) (name source : Text) (strict : Bool) :
    (new context name source strict).Sound where
  symbols := .empty name
  fields := by
    intro f hf
    fin_cases hf <;> rintro ⟨⟩
  routines := by simp [new]
  registered := by simp [new]
  distinct := by simp [new]
  finished := by simp [new]
  nodup := .nil

/-- A unit stays sound, and keeps its names, whatever is asked of it. -/
theorem evolves_after {u : UnitBuilder} {requests : List UnitRequest} (hu : u.Sound)
    (hfields : ∀ f, .field f ∈ requests → f.type ≠ .void) : u.Evolves (u.after requests) := by
  induction requests generalizing u with
  | nil => exact .refl hu
  | cons r requests ih =>
    have hsafe := Build.safe_perform r fun f hf => hfields f (hf ▸ List.mem_cons_self)
    have hstep : u.Evolves (leaves (Build.perform r) u) := (hsafe u hu).leaves
    exact hstep.trans (ih hstep.sound fun f hf => hfields f (List.mem_cons_of_mem r hf))

end UnitBuilder

end Bytecode
