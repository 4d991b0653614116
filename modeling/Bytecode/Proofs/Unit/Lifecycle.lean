import Mathlib
import Bytecode.Proofs.Unit.Verification

/-!
# The life of a unit and of its routines

A unit and its routines go through their phases independently, but the unit keeps lists of its
routines by phase: the open ones, the records of the ended ones, the identities of all. These lists
agree with the phases after any requests, whether the requests were granted or failed halfway. The
bytes of a unit are those of the one time when it could be ended.

## Main definitions

* `UnitBuilder.Lifecycle`: the lists of a unit agree with the phases of its routines
* `UnitBuilder.completed`: the routines that end in the course of requests, in order
* `UnitBuilder.EndsAt`: a request to end the unit that is granted
* `UnitBuilder.published`: the bytes that a unit gives out

## Main results

* `UnitBuilder.Lifecycle.moves`: every move keeps the lists and the phases together
* `Build.ends_perform_staged`: every request does, whichever way it comes out
* `UnitBuilder.Lifecycle.endsOnce`: a unit is ended once at most
* `UnitBuilder.lifecycle_after`: what holds of a unit after any requests
-/

namespace Bytecode

namespace UnitBuilder

variable {u v : UnitBuilder} {id k : Nat} {ids completed : List Nat}

/-! ### Phases of routines -/

/-- The phase of a routine. -/
def routinePhase? (u : UnitBuilder) (id : Nat) : Option Phase := u.routines[id]?.map Routine.phase

theorem routinePhase?_of_some {r : Routine} (hr : u.routines[id]? = some r) :
    u.routinePhase? id = some r.phase := by
  rw [routinePhase?, hr, Option.map_some]

theorem Works.routinePhase?_eq (h : Works id u v) (k : Nat) :
    v.routinePhase? k = u.routinePhase? k := by
  obtain ⟨_, _, f, hf, rfl⟩ := h
  have hphase : ∀ r, (f r).phase = r.phase := by
    intro r
    obtain ⟨assembler, layout, hr⟩ := hf r
    rw [hr]
  simp only [routinePhase?, Array.getElem?_modify]
  split
  · rw [Option.map_map]
    exact congrArg (fun g => u.routines[k]?.map g) (funext hphase)
  · rfl

theorem routinePhase?_withRoutine (u : UnitBuilder) (r : Routine) (k : Nat) :
    (u.withRoutine r).routinePhase? k =
      if k = u.routines.size then some r.phase else u.routinePhase? k := by
  simp only [routinePhase?, withRoutine, Array.getElem?_push]
  split
  · rfl
  · rfl

theorem phase_modify {r : Routine} (hr : u.routines[id]? = some r) (phase : Phase) (k : Nat) :
    (u.routines.modify id fun r => { r with phase })[k]?.map Routine.phase =
      if id = k then some phase else u.routinePhase? k := by
  rw [Array.getElem?_modify]
  split
  · next hk =>
    rw [← hk, hr]
    rfl
  · rfl

theorem routinePhase?_withBegun {r : Routine} (hr : u.routines[id]? = some r) (k : Nat) :
    (u.withBegun id).routinePhase? k = if id = k then some .started else u.routinePhase? k :=
  phase_modify hr .started k

theorem Begins.routinePhase?_eq (h : Begins id u v) : v.routinePhase? id = some .started := by
  obtain ⟨-, ⟨r, hr, -⟩, hwork⟩ := h
  rw [hwork.routinePhase?_eq, routinePhase?_withBegun hr, if_pos rfl]

theorem routinePhase?_withEnded {r : Routine} {record : RoutineRecord}
    (hr : u.routines[id]? = some r) (k : Nat) :
    (u.withEnded id record).routinePhase? k = if id = k then some .ended else u.routinePhase? k :=
  phase_modify hr .ended k

/-- The record is that of a routine of the unit. -/
def HasRecord (routines : Array Routine) (id : Nat) (record : RoutineRecord) : Prop :=
  ∃ r, routines[id]? = some r ∧ r.RecordedAs record

theorem HasRecord.modify {routines : Array Routine} {record : RoutineRecord}
    (h : HasRecord routines k record) {f : Routine → Routine}
    (hf : ∀ r : Routine, r.RecordedAs record → (f r).RecordedAs record) :
    HasRecord (routines.modify id f) k record := by
  obtain ⟨r, hr, hrecord⟩ := h
  by_cases hk : id = k
  · exact ⟨f r, by rw [Array.getElem?_modify, if_pos hk, hr, Option.map_some], hf r hrecord⟩
  · exact ⟨r, by rw [Array.getElem?_modify, if_neg hk, hr], hrecord⟩

theorem HasRecord.push {routines : Array Routine} {record : RoutineRecord}
    (h : HasRecord routines k record) (r : Routine) : HasRecord (routines.push r) k record := by
  obtain ⟨r', hr', hrecord⟩ := h
  exact ⟨r', getElem?_push_of_some hr', hrecord⟩

/-! ### The invariant -/

/-- The lists that a unit keeps of its routines agree with the phases of the routines. The routines
in `completed` have ended, in this order. -/
structure Lifecycle (u : UnitBuilder) (completed : List Nat) : Prop where
  /-- The open routines are those that are started. -/
  mem_open : ∀ id, id ∈ u.openRoutines ↔ u.routinePhase? id = some .started
  nodup_open : u.openRoutines.Nodup
  /-- The completed routines are those that have ended. -/
  mem_completed : ∀ id, id ∈ completed ↔ u.routinePhase? id = some .ended
  nodup_completed : completed.Nodup
  /-- There is one record for each completed routine, in the same order, and no other. -/
  records : List.Forall₂ (HasRecord u.routines) completed u.finished.toList
  /-- The identities that are taken are those of the routines. -/
  mem_identities : ∀ x, x ∈ u.identities ↔ x ∈ u.known
  nodup_known : u.known.Nodup
  nodup_fields : (u.fields.toList.map Field.name).Nodup
  /-- Routines are open only while the unit is started. -/
  started : u.openRoutines ≠ [] → u.phase = .started

namespace Lifecycle

/-- The parts of a unit on which its lists do not depend. -/
theorem frame (h : u.Lifecycle completed) (context : Context) (symbols : SymbolTable) (pool : Pool)
    (fields : FieldTable) (bytes : Bytes) :
    Lifecycle { u with context, symbols, pool, fields, bytes } completed :=
  { h with nodup_fields := fields.nodup_toList }

/-- A started routine is open, and so the unit is started. -/
theorem guards (h : u.Lifecycle completed) (id : Nat) : u.Guards id := by
  intro r hr hphase
  have hopen : id ∈ u.openRoutines := (h.mem_open id).mpr (hphase ▸ routinePhase?_of_some hr)
  exact ⟨h.started (List.ne_nil_of_mem hopen), hopen⟩

/-- A routine that has ended is one of the routines. -/
theorem lt_of_mem (h : u.Lifecycle completed) (hid : id ∈ completed) : id < u.routines.size := by
  obtain ⟨r, hr, -⟩ := Option.map_eq_some_iff.mp ((h.mem_completed id).mp hid)
  exact (Array.getElem?_eq_some_iff.mp hr).1

theorem work {w : UnitBuilder} (h : u.Lifecycle completed) (hwork : Works id u w) :
    w.Lifecycle completed := by
  have hphase := hwork.routinePhase?_eq
  have hknown := hwork.known_eq
  obtain ⟨context, symbols, f, hf, rfl⟩ := hwork
  refine ⟨?_, h.nodup_open, ?_, h.nodup_completed, ?_, ?_, ?_, h.nodup_fields, h.started⟩
  · intro k
    rw [hphase]
    exact h.mem_open k
  · intro k
    rw [hphase]
    exact h.mem_completed k
  · refine h.records.imp fun k record hrecord => hrecord.modify fun r hr => ?_
    obtain ⟨assembler, layout, hfr⟩ := hf r
    rw [hfr]
    exact hr
  · intro x
    rw [hknown]
    exact h.mem_identities x
  · rw [hknown]
    exact h.nodup_known

theorem add (h : u.Lifecycle completed) {r : Routine} (hphase : r.phase = .notStarted)
    (hnew : r.identity ∉ u.identities) : (u.withRoutine r).Lifecycle completed := by
  -- there was no routine at the new place, and the new one is neither started nor ended
  have hother : ∀ {p : Phase} (k : Nat), p ≠ .notStarted →
      ((u.withRoutine r).routinePhase? k = some p ↔ u.routinePhase? k = some p) := by
    intro p k hp
    rw [routinePhase?_withRoutine]
    split
    · next hk =>
      have hnone : u.routinePhase? k = none := by
        rw [routinePhase?, hk, Array.getElem?_eq_none le_rfl, Option.map_none]
      rw [hnone, hphase]
      simp [hp.symm]
    · exact Iff.rfl
  refine ⟨?_, h.nodup_open, ?_, h.nodup_completed, ?_, ?_, ?_, h.nodup_fields, h.started⟩
  · intro k
    rw [hother k (by decide)]
    exact h.mem_open k
  · intro k
    rw [hother k (by decide)]
    exact h.mem_completed k
  · exact h.records.imp fun k record hrecord => hrecord.push r
  · intro x
    rw [withRoutine, Std.TreeSet.mem_insert, h.mem_identities, ← withRoutine, known_withRoutine,
      List.mem_append, List.mem_singleton, Std.compare_eq_iff_eq, eq_comm, or_comm]
  · rw [known_withRoutine]
    refine List.nodup_append.mpr ⟨h.nodup_known, List.nodup_singleton _, ?_⟩
    rintro x hx y hy rfl
    exact hnew ((h.mem_identities _).mpr (List.mem_singleton.mp hy ▸ hx))

theorem begin (h : u.Lifecycle completed) {r : Routine} (hstarted : u.phase = .started)
    (hr : u.routines[id]? = some r) (hphase : r.phase = .notStarted) :
    (u.withBegun id).Lifecycle completed := by
  have hwas : u.routinePhase? id = some .notStarted := hphase ▸ routinePhase?_of_some hr
  refine ⟨?_, ?_, ?_, h.nodup_completed, ?_, ?_, ?_, h.nodup_fields, fun _ => hstarted⟩
  · intro k
    rw [routinePhase?_withBegun hr]
    change k ∈ id :: u.openRoutines ↔ _
    by_cases hk : id = k
    · simp [hk]
    · rw [List.mem_cons, if_neg hk, h.mem_open]
      simp [Ne.symm hk]
  · -- a routine that was not started was not open
    refine List.nodup_cons.mpr ⟨?_, h.nodup_open⟩
    rw [h.mem_open, hwas]
    simp
  · intro k
    rw [routinePhase?_withBegun hr, h.mem_completed]
    by_cases hk : id = k
    · rw [if_pos hk, ← hk, hwas]
      simp
    · rw [if_neg hk]
  · exact h.records.imp fun k record hrecord => hrecord.modify fun _ hr => hr
  · intro x
    rw [known_withBegun]
    exact h.mem_identities x
  · rw [known_withBegun]
    exact h.nodup_known

theorem finish (h : u.Lifecycle completed) {r : Routine} {record : RoutineRecord}
    (hr : u.routines[id]? = some r) (hphase : r.phase = .started)
    (hrecord : r.RecordedAs record) :
    (u.withEnded id record).Lifecycle (completed ++ [id]) := by
  have hwas : u.routinePhase? id = some .started := hphase ▸ routinePhase?_of_some hr
  refine ⟨?_, ?_, ?_, ?_, ?_, ?_, ?_, h.nodup_fields, ?_⟩
  · intro k
    rw [routinePhase?_withEnded hr]
    change k ∈ u.openRoutines.erase id ↔ _
    rw [h.nodup_open.mem_erase_iff, h.mem_open]
    by_cases hk : id = k
    · simp [hk]
    · simp [hk, Ne.symm hk]
  · exact h.nodup_open.erase id
  · intro k
    rw [routinePhase?_withEnded hr, List.mem_append, List.mem_singleton, h.mem_completed]
    by_cases hk : id = k
    · simp [hk]
    · simp [hk, Ne.symm hk]
  · -- a routine that was started had not ended
    refine List.nodup_append.mpr ⟨h.nodup_completed, List.nodup_singleton _, ?_⟩
    rintro k hk k' hk' rfl
    rw [h.mem_completed, List.mem_singleton.mp hk', hwas] at hk
    cases hk
  · change List.Forall₂ _ _ (u.finished.push record).toList
    rw [Array.toList_push]
    refine List.rel_append ?_ (.cons ?_ .nil)
    · exact h.records.imp fun k record hrecord => hrecord.modify fun _ hr => hr
    · exact HasRecord.modify ⟨r, hr, hrecord⟩ fun _ hr => hr
  · intro x
    rw [known_withEnded]
    exact h.mem_identities x
  · rw [known_withEnded]
    exact h.nodup_known
  · intro hopen
    refine h.started fun hnil => hopen ?_
    change u.openRoutines.erase id = []
    rw [hnil]
    rfl

/-- **Every move keeps the lists and the phases together.** -/
theorem moves {first : Nat} (h : u.Lifecycle completed) (hmoves : Moves first u ids v) :
    v.Lifecycle (completed ++ ids) := by
  induction hmoves with
  | refl => simpa using h
  | @report _ v _ context ih => exact ih.frame context v.symbols v.pool v.fields v.bytes
  | work _ _ hwork ih => exact ih.work hwork
  | add _ _ hphase hnew ih => exact ih.add hphase hnew
  | begin _ _ hstarted hr hphase ih => exact ih.begin hstarted hr hphase
  | finish _ _ hr hphase _ hrecord ih =>
    rw [← List.append_assoc]
    exact ih.finish hr hphase hrecord

end Lifecycle

/-! ### Requests -/

/-- The bytes that a unit gives out, once it has ended. -/
def published (u : UnitBuilder) : Option Bytes := if u.phase = .ended then some u.bytes else none

/-- The lists of a unit agree with the phases of its routines, and these are its bytes. -/
structure Staged (completed : List Nat) (bytes : Option Bytes) (u : UnitBuilder) : Prop where
  lifecycle : u.Lifecycle completed
  published_eq : u.published = bytes

/-- More routines may have ended by now, the older ones among them first. -/
def Proceeds (completed : List Nat) (bytes : Option Bytes) (u : UnitBuilder) : Prop :=
  ∃ ids, ids.Pairwise (· < ·) ∧ Staged (completed ++ ids) bytes u

theorem Staged.proceeds {bytes : Option Bytes} (h : Staged completed bytes u) :
    Proceeds completed bytes u := ⟨[], .nil, by simpa using h⟩

theorem Staged.moves {first : Nat} {bytes : Option Bytes} (h : Staged completed bytes u)
    (hmoves : Moves first u ids v) : Staged (completed ++ ids) bytes v := by
  refine ⟨h.lifecycle.moves hmoves, ?_⟩
  obtain ⟨_, _, _, _, _, _, rfl⟩ := hmoves.frame
  exact h.published_eq

end UnitBuilder

namespace Build

open UnitBuilder

variable {α : Type} {u : UnitBuilder} {completed : List Nat} {bytes : Option Bytes}

theorem keeps_of_moves {m : Build α}
    (hm : ∀ u, Ends m u (fun _ => Moves 0 u []) fun _ => Moves 0 u []) :
    Keeps (Staged completed bytes) (Staged completed bytes) m := by
  intro u hu
  have hmoves : ∀ v, Moves 0 u [] v → Staged completed bytes v := fun v hv => by
    simpa using hu.moves hv
  exact (hm u).mono (fun _ => hmoves) fun _ => hmoves

theorem keeps_begin : Keeps (Staged completed bytes) (Staged completed bytes) Build.begin := by
  intro u hu
  refine Ends.bind (ends_requirePhase (fun _ _ => hu) fun hphase => Ends.bind (Ends.get ?_))
  refine Ends.bind (ends_ofExcept (fun _ _ => hu) fun _ _ => ?_)
  refine Ends.bind (ends_ofExcept (fun _ _ => hu) fun _ _ => Ends.modify ?_)
  refine ⟨{ hu.lifecycle with started := fun _ => rfl }, ?_⟩
  -- the unit has no bytes before, and has not ended after
  rw [← hu.published_eq, published, published, hphase]
  rfl

theorem keeps_field (f : Field) :
    Keeps (Staged completed bytes) (Staged completed bytes) (field f) := by
  intro u hu
  refine Ends.bind (ends_requirePhase (fun _ _ => hu) fun _ => Ends.bind (Ends.get ?_))
  refine Ends.bind (ends_ofExcept (fun _ _ => hu) fun _ _ => ?_)
  split
  · exact Ends.bind hu
  · exact ⟨hu.lifecycle.frame u.context u.symbols u.pool (u.fields.insert f) u.bytes,
      hu.published_eq⟩

theorem keeps_intern (c : Constant) :
    Keeps (Staged completed bytes) (Staged completed bytes) (intern c) := by
  intro u hu
  refine ends_intern.mono ?_ ?_
  · rintro - _ ⟨pool, -, rfl⟩
    exact ⟨hu.lifecycle.frame u.context u.symbols pool u.fields u.bytes, hu.published_eq⟩
  · rintro - _ rfl
    exact hu

theorem keeps_request (t : ValueType) :
    Keeps (Staged completed bytes) (Staged completed bytes) (Build.request t) := by
  intro u hu
  refine ends_request.mono ?_ ?_
  · rintro - _ ⟨pool, -, rfl⟩
    exact ⟨hu.lifecycle.frame u.context u.symbols pool u.fields u.bytes, hu.published_eq⟩
  · rintro - _ rfl
    exact hu

theorem keeps_symbol (text : Text) :
    Keeps (Staged completed bytes) (Staged completed bytes) (symbol text) := by
  intro u hu
  refine ends_symbol.mono ?_ ?_
  · rintro - _ ⟨symbols, -, rfl⟩
    exact ⟨hu.lifecycle.frame u.context symbols u.pool u.fields u.bytes, hu.published_eq⟩
  · rintro - _ rfl
    exact hu

theorem keeps_routine (flags : Flags) (name : Text) (signature : Signature) :
    Keeps (Staged completed bytes) (Staged completed bytes) (routine flags name signature) := by
  refine keeps_of_moves fun u => ends_routine.mono (fun _ _ hadds => hadds.moves) ?_
  rintro - _ rfl
  exact .refl

theorem keeps_beginRoutine (id : Nat) :
    Keeps (Staged completed bytes) (Staged completed bytes) (beginRoutine id) := by
  refine keeps_of_moves fun u => ends_beginRoutine.mono ?_ ?_
  · exact fun _ _ hbegins => hbegins.moves (Nat.zero_le id)
  · rintro - _ (rfl | hbegins)
    · exact .refl
    · exact hbegins.moves (Nat.zero_le id)

theorem keeps_onRoutine (id : Nat) (step : Emit α) :
    Keeps (Staged completed bytes) (Staged completed bytes) (onRoutine id step) :=
  keeps_of_moves fun _ => (ends_onRoutine_works step).mono
    (fun _ _ hwork => Moves.refl.work (Nat.zero_le id) hwork)
    fun _ _ hwork => Moves.refl.work (Nat.zero_le id) hwork

theorem keeps_openRoutine (name : Text) (a : Attributes) (paramCount scopeSize : Nat) :
    Keeps (Staged completed bytes) (Staged completed bytes)
      (openRoutine name a paramCount scopeSize) :=
  keeps_of_moves fun _ => ends_openRoutine

theorem keeps_loadConstant (id : Nat) (c : Constant) :
    Keeps (Staged completed bytes) (Staged completed bytes) (loadConstant id c) := by
  refine keeps_loadConstant_of_emission (fun _ hu => hu) (fun u pool hu => ?_)
    (fun e => keeps_onRoutine id _) c
  exact ⟨hu.lifecycle.frame u.context u.symbols pool u.fields u.bytes, hu.published_eq⟩

/-- A request other than to end the unit keeps its lists and the phases together, and its bytes,
whichever way the request comes out. -/
theorem ends_perform_staged {r : UnitRequest} (hu : Staged completed bytes u) (hr : r ≠ .finish) :
    Ends (perform r) u (fun _ => Proceeds completed bytes) fun _ => Proceeds completed bytes := by
  -- only the end of a routine completes something
  have hquiet : ∀ {m : Build Unit}, Keeps (Staged completed bytes) (Staged completed bytes) m →
      Ends m u (fun _ => Proceeds completed bytes) fun _ => Proceeds completed bytes := fun hm =>
    (hm u hu).mono (fun _ _ hv => hv.proceeds) fun _ _ hv => hv.proceeds
  cases r with
  | begin => exact hquiet keeps_begin
  | finish => exact absurd rfl hr
  | field f => exact hquiet (keeps_field f)
  | routine flags name signature => exact hquiet ((keeps_routine flags name signature).map _)
  | staticInitializer => exact hquiet ((keeps_routine _ _ _).map _)
  | instanceInitializer params => exact hquiet ((keeps_routine _ _ _).map _)
  | openRoutine name a paramCount scopeSize =>
    exact hquiet ((keeps_openRoutine name a paramCount scopeSize).map _)
  | openFunction f =>
    refine hquiet (Keeps.map _ ((keeps_ofExcept (fun _ hv => hv) _).bind fun _ => ?_))
    exact keeps_openRoutine _ _ _ _
  | beginRoutine id => exact hquiet (keeps_beginRoutine id)
  | endRoutine id =>
    refine (ends_endRoutine (hu.lifecycle.guards id)).mono ?_ ?_
    · rintro - _ ⟨w, r, record, hwork, hr, hphase, hopen, hrecord, rfl⟩
      have hworked : Moves 0 u [] w := Moves.refl.work (Nat.zero_le id) hwork
      exact ⟨[id], List.pairwise_singleton _ _,
        hu.moves (hworked.finish (Nat.zero_le id) hr hphase hopen hrecord)⟩
    · rintro - _ rfl
      exact hu.proceeds
  | onRoutine id r => exact hquiet (keeps_onRoutine id _)
  | loadConstants id => exact hquiet (keeps_get.bind fun _ => keeps_onRoutine id _)
  | loadConstant id c => exact hquiet (keeps_loadConstant id c)
  | intern c => exact hquiet ((keeps_intern c).map _)
  | request t => exact hquiet (keeps_request t)
  | symbol text => exact hquiet ((keeps_symbol text).map _)

/-- A unit that ends gets its bytes then. When it cannot be ended, nothing changes. -/
theorem ends_finish_staged (hu : Staged completed bytes u) :
    Ends finish u
      (fun _ v => bytes = none ∧ Proceeds completed (some v.bytes) v ∧
        v.image.encode = .ok v.bytes)
      fun _ => Staged completed bytes := by
  refine ends_finish_restored.mono ?_ ?_
  · rintro - _ ⟨hstarted, hopen, w, context, encoded, hassemble, rfl⟩
    obtain ⟨⟨count, hsupplies⟩, hencoded⟩ := ends_assemble_supplies.ok hassemble
    have hw := (hu.lifecycle.moves hsupplies.moves).frame context w.symbols w.pool w.fields encoded
    have hclosed : w.openRoutines = [] := hsupplies.open_eq.trans hopen
    -- the added routines have ended one after the other, so their numbers go up
    refine ⟨?_, ⟨_, List.pairwise_lt_range' 1, ⟨{ hw with started := ?_ }, rfl⟩⟩, hencoded⟩
    · rw [← hu.published_eq, published, hstarted]
      rfl
    · exact fun hne => absurd hclosed hne
  · rintro - _ ⟨context, identities, hmem, rfl⟩
    have hlists := hu.lifecycle.frame context u.symbols u.pool u.fields u.bytes
    refine ⟨{ hlists with mem_identities := fun x => ?_ }, hu.published_eq⟩
    exact (hmem x).trans (hu.lifecycle.mem_identities x)

theorem toBytes_eq_ok_iff {b : Bytes} {v : UnitBuilder} :
    toBytes u = .ok b v ↔ v = u ∧ u.published = some b := by
  by_cases hphase : u.phase = .ended
  · rw [toBytes_of_ended hphase, published, if_pos hphase]
    simp [eq_comm, and_comm]
  · have hfails : Ends toBytes u (fun _ _ => False) fun _ _ => True :=
      Ends.bind (ends_requirePhase (fun _ _ => trivial) fun hended => absurd hended hphase)
    rw [published, if_neg hphase]
    constructor
    · exact fun h => (hfails.ok h).elim
    · rintro ⟨-, h⟩
      cases h

end Build

/-! ### Runs -/

namespace UnitBuilder

variable {u v w : UnitBuilder} {ids done : List Nat} {requests before : List UnitRequest}

/-- The routines that have ended in `v` but not in `u`, in the order of the routines. -/
def newlyEnded (u v : UnitBuilder) : List Nat :=
  (List.range v.routines.size).filter fun id =>
    v.routinePhase? id = some .ended ∧ u.routinePhase? id ≠ some .ended

/-- The routines that end in the course of requests, in the order in which they do. Routines that
end with the same request are in the order of the routines. -/
def completed : UnitBuilder → List UnitRequest → List Nat
  | _, [] => []
  | u, r :: rest =>
    u.newlyEnded (leaves (Build.perform r) u) ++ (leaves (Build.perform r) u).completed rest

/-- The request after those in `before` is to end the unit, and is granted. The unit is `w` then. -/
def EndsAt (u : UnitBuilder) (requests before : List UnitRequest) (w : UnitBuilder) : Prop :=
  before ++ [.finish] <+: requests ∧ Build.finish (u.after before) = .ok () w

theorem after_concat (u : UnitBuilder) (requests : List UnitRequest) (r : UnitRequest) :
    u.after (requests ++ [r]) = leaves (Build.perform r) (u.after requests) := List.foldl_append

theorem endsAt_concat {r : UnitRequest} : u.EndsAt (requests ++ [r]) before w ↔
    u.EndsAt requests before w ∨
      before = requests ∧ r = .finish ∧ Build.finish (u.after requests) = .ok () w := by
  unfold EndsAt
  rw [List.prefix_concat_iff]
  constructor
  · rintro ⟨heq | hpart, hfinish⟩
    · obtain ⟨rfl, hr⟩ := List.append_inj' heq rfl
      exact .inr ⟨rfl, (List.singleton_inj.mp hr).symm, hfinish⟩
    · exact .inl ⟨hpart, hfinish⟩
  · rintro (⟨hpart, hfinish⟩ | ⟨rfl, rfl, hfinish⟩)
    · exact ⟨.inr hpart, hfinish⟩
    · exact ⟨.inl rfl, hfinish⟩

/-- **A unit is ended once at most.** It gives out the bytes of that time from then on, and none
before. -/
structure EndsOnce (u : UnitBuilder) (requests : List UnitRequest) : Prop where
  published_iff : ∀ bytes, (u.after requests).published = some bytes ↔
    ∃ before w, u.EndsAt requests before w ∧ w.image.encode = .ok bytes
  unique : ∀ before before' w w', u.EndsAt requests before w → u.EndsAt requests before' w' →
    before = before'

namespace EndsOnce

theorem nil (hnone : u.published = none) : u.EndsOnce [] := by
  have hnever : ∀ before w, ¬ u.EndsAt [] before w := by
    rintro before w ⟨hpart, -⟩
    simpa using List.prefix_nil.mp hpart
  refine ⟨fun bytes => ?_, fun before _ w _ hends => absurd hends (hnever before w)⟩
  rw [show u.after [] = u from rfl, hnone]
  constructor
  · rintro ⟨⟩
  · rintro ⟨before, w, hends, -⟩
    exact absurd hends (hnever before w)

/-- A request that does not end the unit. -/
theorem next {r : UnitRequest} (h : u.EndsOnce requests)
    (hbytes : (u.after (requests ++ [r])).published = (u.after requests).published)
    (hnot : ∀ w, ¬ (r = .finish ∧ Build.finish (u.after requests) = .ok () w)) :
    u.EndsOnce (requests ++ [r]) := by
  have hends : ∀ before w, u.EndsAt (requests ++ [r]) before w ↔ u.EndsAt requests before w := by
    intro before w
    rw [endsAt_concat]
    exact or_iff_left fun hnow => hnot w hnow.2
  constructor
  · simpa only [hbytes, hends] using h.published_iff
  · simpa only [hends] using h.unique

/-- The request that ends the unit, when none did before. -/
theorem first (hearlier : ∀ before w, ¬ u.EndsAt requests before w)
    (hfinish : Build.finish (u.after requests) = .ok () w) (hbytes : w.published = some w.bytes)
    (hencode : w.image.encode = .ok w.bytes) : u.EndsOnce (requests ++ [.finish]) := by
  have honly : ∀ before w', u.EndsAt (requests ++ [.finish]) before w' ↔
      before = requests ∧ w' = w := by
    intro before w'
    rw [endsAt_concat, hfinish]
    constructor
    · rintro (hends | ⟨rfl, -, heq⟩)
      · exact absurd hends (hearlier before w')
      · cases heq
        exact ⟨rfl, rfl⟩
    · rintro ⟨rfl, rfl⟩
      exact .inr ⟨rfl, rfl, rfl⟩
  have hafter : u.after (requests ++ [.finish]) = w := by
    rw [after_concat, leaves, Build.perform, hfinish]
  refine ⟨fun bytes => ?_, fun before before' _ _ hends hends' => ?_⟩
  · simp only [honly, hafter, hbytes]
    constructor
    · rintro ⟨⟩
      exact ⟨requests, w, ⟨rfl, rfl⟩, hencode⟩
    · rintro ⟨_, _, ⟨rfl, rfl⟩, hw⟩
      rw [hencode] at hw
      rw [Except.ok.inj hw]
  · rw [((honly _ _).mp hends).1, ((honly _ _).mp hends').1]

end EndsOnce

namespace Lifecycle

/-- Routines that ended in order are those that are found to have ended. -/
theorem newlyEnded_eq (h : u.Lifecycle done) (h' : v.Lifecycle (done ++ ids))
    (hids : ids.Pairwise (· < ·)) : u.newlyEnded v = ids := by
  refine (List.pairwise_lt_range.filter _).eq_of_mem_iff hids fun id => ?_
  -- what has ended in `v` is done in `u` already or among the new ones, and not both
  obtain ⟨-, -, hdisjoint⟩ := List.nodup_append'.mp h'.nodup_completed
  rw [List.mem_filter, decide_eq_true_eq, ← h'.mem_completed, Ne, ← h.mem_completed,
    List.mem_append, List.mem_range]
  constructor
  · rintro ⟨-, hmem, hnew⟩
    exact hmem.resolve_left hnew
  · intro hmem
    have hended : id < v.routines.size := h'.lt_of_mem (List.mem_append_right done hmem)
    exact ⟨hended, .inr hmem, fun hdone => hdisjoint hdone hmem⟩

/-- A request keeps the lists and the phases together, whichever way it comes out. -/
theorem perform (h : u.Lifecycle done) (r : UnitRequest) :
    (leaves (Build.perform r) u).Lifecycle (done ++ u.newlyEnded (leaves (Build.perform r) u)) := by
  have hends : Ends (Build.perform r) u (fun _ v => ∃ bytes, Proceeds done bytes v)
      fun _ v => ∃ bytes, Proceeds done bytes v := by
    by_cases hr : r = .finish
    · subst hr
      exact (Build.ends_finish_staged ⟨h, rfl⟩).mono (fun _ _ hv => ⟨_, hv.2.1⟩)
        fun _ _ hv => ⟨_, hv.proceeds⟩
    · exact (Build.ends_perform_staged ⟨h, rfl⟩ hr).mono (fun _ _ hv => ⟨_, hv⟩)
        fun _ _ hv => ⟨_, hv⟩
  obtain ⟨_, ids, hids, hv⟩ := hends.leaves
  rw [h.newlyEnded_eq hv.lifecycle hids]
  exact hv.lifecycle

/-- The lists and the phases stay together through any requests. -/
theorem after (h : u.Lifecycle done) (requests : List UnitRequest) :
    (u.after requests).Lifecycle (done ++ u.completed requests) := by
  induction requests generalizing u done with
  | nil =>
    rw [completed, List.append_nil]
    exact h
  | cons r requests ih =>
    have hrest := ih (h.perform r)
    rwa [List.append_assoc] at hrest

/-- A request other than to end the unit leaves its bytes alone. -/
theorem published_perform (h : u.Lifecycle done) {r : UnitRequest} (hr : r ≠ .finish) :
    (leaves (Build.perform r) u).published = u.published := by
  have hends := Build.ends_perform_staged (r := r) ⟨h, rfl⟩ hr
  obtain ⟨ids, -, hv⟩ := hends.leaves
  exact hv.published_eq

theorem encode_of_endsAt (h : u.Lifecycle done) (hends : u.EndsAt requests before w) :
    w.image.encode = .ok w.bytes :=
  ((Build.ends_finish_staged ⟨h.after before, rfl⟩).ok hends.2).2.2

/-- A unit that gives out no bytes is ended once at most, through any requests. -/
theorem endsOnce (h : u.Lifecycle done) (hnone : u.published = none)
    (requests : List UnitRequest) : u.EndsOnce requests := by
  induction requests using List.reverseRecOn with
  | nil => exact .nil hnone
  | append_singleton requests r ih =>
    have hlists := h.after requests
    by_cases hr : r = .finish
    · subst hr
      cases hfinish : Build.finish (u.after requests) with
      | ok x w =>
        obtain ⟨hbefore, ⟨_, -, hw⟩, hencode⟩ :=
          (Build.ends_finish_staged ⟨hlists, rfl⟩).ok hfinish
        -- had it been ended before, it would have given out bytes by now
        have hearlier : ∀ before w, ¬ u.EndsAt requests before w := by
          intro before w hends
          have hsome := (ih.published_iff w.bytes).mpr
            ⟨before, w, hends, h.encode_of_endsAt hends⟩
          rw [hbefore] at hsome
          cases hsome
        exact .first hearlier hfinish hw.published_eq hencode
      | error e w =>
        have hw := (Build.ends_finish_staged ⟨hlists, rfl⟩).error hfinish
        refine ih.next ?_ ?_
        · rw [after_concat, leaves, Build.perform, hfinish]
          exact hw.published_eq
        · rintro w' ⟨-, heq⟩
          rw [hfinish] at heq
          cases heq
    · refine ih.next ?_ fun w hends => hr hends.1
      rw [after_concat]
      exact hlists.published_perform hr

end Lifecycle

theorem lifecycle_new (context : Context) (name source : Text) (strict : Bool) :
    (new context name source strict).Lifecycle [] where
  mem_open := by simp [new, routinePhase?]
  nodup_open := .nil
  mem_completed := by simp [new, routinePhase?]
  nodup_completed := .nil
  records := .nil
  mem_identities := by simp [new, known]
  nodup_known := .nil
  nodup_fields := FieldTable.nodup_toList _
  started h := absurd rfl h

/-- **What holds of a unit after any requests**, granted or not. The open routines are those that
are started. There is one record for each routine that has ended, in the order in which they did,
and no other. The identities that are taken are those of the routines, and no two are the same; nor
are two names of fields. No routine is started once the unit has ended. The unit gives out bytes
only then, always those of its contents at its end, and it ends only once. -/
theorem lifecycle_after (context : Context) (name source : Text) (strict : Bool)
    (requests : List UnitRequest) :
    let start := new context name source strict
    let u := start.after requests
    u.Lifecycle (start.completed requests) ∧
      (u.phase = .ended → ∀ id, u.routinePhase? id ≠ some .started) ∧
      (∀ bytes v, Build.toBytes u = .ok bytes v ↔ v = u ∧ u.phase = .ended ∧
        ∃ before w, start.EndsAt requests before w ∧ w.image.encode = .ok bytes) ∧
      (∀ before w, start.EndsAt requests before w → u.phase = .ended) ∧
      ∀ before before' w w', start.EndsAt requests before w → start.EndsAt requests before' w' →
        before = before' := by
  intro start u
  have hstart : start.Lifecycle [] := lifecycle_new context name source strict
  have hu : u.Lifecycle (start.completed requests) := hstart.after requests
  obtain ⟨hpublished, hunique⟩ := hstart.endsOnce rfl requests
  have hended : ∀ {bytes}, u.published = some bytes → u.phase = .ended := by
    intro bytes hsome
    by_contra hphase
    rw [published, if_neg hphase] at hsome
    cases hsome
  refine ⟨hu, ?_, ?_, ?_, hunique⟩
  · intro hphase id hstarted
    have hopen := hu.started (List.ne_nil_of_mem ((hu.mem_open id).mpr hstarted))
    rw [hphase] at hopen
    cases hopen
  · intro bytes v
    rw [Build.toBytes_eq_ok_iff, ← hpublished bytes]
    exact and_congr_right fun _ => ⟨fun hsome => ⟨hended hsome, hsome⟩, fun h => h.2⟩
  · intro before w hends
    exact hended ((hpublished w.bytes).mpr ⟨before, w, hends, hstart.encode_of_endsAt hends⟩)

/-- Routines that overlap, of which the second one ends first, and a routine that is added by the
end of the unit. -/
theorem interleavedUnit_lifecycle :
    let u := (new {} "unit" "source" true).after (interleavedUnit ++ [.finish])
    u.phase = .ended ∧ u.Lifecycle [1, 0, 2] ∧ ∀ id, u.routinePhase? id ≠ some .started := by
  intro u
  have hphase : u.phase = .ended := by decide +kernel
  have hcompleted :
      (new {} "unit" "source" true).completed (interleavedUnit ++ [.finish]) = [1, 0, 2] := by
    decide +kernel
  obtain ⟨hlifecycle, hnone, -⟩ :=
    lifecycle_after {} "unit" "source" true (interleavedUnit ++ [.finish])
  rw [hcompleted] at hlifecycle
  exact ⟨hphase, hlifecycle, hnone hphase⟩

end UnitBuilder

end Bytecode
