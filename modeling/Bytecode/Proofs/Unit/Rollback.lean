import Mathlib
import Bytecode.Proofs.Unit.Moves

/-!
# Taking back the end of a unit

A unit is ended by adding routines to it through the same steps that clients use, and any of them
may fail: an identity may be taken, a symbol may not fit, a count may be too large, the verifier may
turn the unit down. Routines that were there before are not touched on the way, and the identities
of added ones were free. The unit is therefore what it was once additions are taken back; only what
was reported stays.

## Main definitions

* `UnitBuilder.Extends`: a unit to which routines have been added
* `UnitBuilder.Restored`: a unit that is what it was, apart from its reports

## Main results

* `UnitBuilder.Moves.restored`: rolling back takes away all that was added
* `Build.ends_finish_restored`: how the end of a unit comes out
* `Build.finish_restores`: a unit that cannot be ended is what it was
-/

namespace Bytecode

namespace UnitBuilder

variable {u v : UnitBuilder} {added : List Text}

/-- The identities of the released routines are free, and all others stay taken. -/
theorem mem_release {taken : Std.TreeSet Text} {routines : List Routine} {x : Text} :
    x ∈ release taken routines ↔ x ∈ taken ∧ x ∉ routines.map Routine.identity := by
  induction routines generalizing taken with
  | nil => simp [release]
  | cons r routines ih =>
    change x ∈ release (taken.erase r.identity) routines ↔ _
    rw [ih, Std.TreeSet.mem_erase, List.map_cons, List.mem_cons, ne_eq, Std.compare_eq_iff_eq,
      eq_comm]
    tauto

/-- Routines with the given identities have been added to a unit without open routines. Nothing else
has happened to its routines and records, and the identities were free. -/
structure Extends (u : UnitBuilder) (added : List Text) (v : UnitBuilder) : Prop where
  routines : ∀ k < u.routines.size, v.routines[k]? = u.routines[k]?
  known_eq : v.known = u.known ++ added
  mem_identities : ∀ x, x ∈ v.identities ↔ x ∈ u.identities ∨ x ∈ added
  fresh : ∀ x ∈ added, x ∉ u.identities
  opened : ∀ id ∈ v.openRoutines, u.routines.size ≤ id
  finished : u.finished.toList <+: v.finished.toList

theorem Extends.size_le (h : u.Extends added v) : u.routines.size ≤ v.routines.size := by
  have hlength := congrArg List.length h.known_eq
  simp only [List.length_append, length_known] at hlength
  omega

/-- An added routine may change, as long as it keeps its identity. -/
theorem Extends.modify (h : u.Extends added v) {id : Nat} {f : Routine → Routine}
    {openRoutines : List Nat} {finished : Array RoutineRecord} (hid : u.routines.size ≤ id)
    (hf : ∀ r, (f r).identity = r.identity)
    (hopened : ∀ id ∈ openRoutines, u.routines.size ≤ id)
    (hfinished : u.finished.toList <+: finished.toList) (context : Context)
    (symbols : SymbolTable) :
    u.Extends added { v with
      context, symbols, openRoutines, finished, routines := v.routines.modify id f } := by
  refine ⟨?_, ?_, h.mem_identities, h.fresh, hopened, hfinished⟩
  · intro k hk
    have hne : id ≠ k := by omega
    rw [Array.getElem?_modify, if_neg hne]
    exact h.routines k hk
  · rw [← h.known_eq]
    exact known_modify v hf

theorem Extends.add (h : u.Extends added v) {r : Routine} (hnew : r.identity ∉ v.identities) :
    u.Extends (added ++ [r.identity]) (v.withRoutine r) := by
  refine ⟨?_, ?_, ?_, ?_, h.opened, h.finished⟩
  · -- the new routine comes after those that were there
    intro k hk
    have hsize := h.size_le
    have hne : k ≠ v.routines.size := by omega
    rw [withRoutine, Array.getElem?_push, if_neg hne]
    exact h.routines k hk
  · rw [known_withRoutine, h.known_eq, List.append_assoc]
  · intro x
    rw [withRoutine, Std.TreeSet.mem_insert, h.mem_identities, Std.compare_eq_iff_eq,
      List.mem_append, List.mem_singleton, eq_comm]
    tauto
  · intro x hx
    rcases List.mem_append.mp hx with hx | hx
    · exact h.fresh x hx
    · rw [List.mem_singleton.mp hx]
      exact fun htaken => hnew ((h.mem_identities _).mpr (.inl htaken))

/-- Moves that touch no routine of a unit only add to it. -/
theorem Moves.extends {ids : List Nat} (h : Moves u.routines.size u ids v)
    (hopen : u.openRoutines = []) : ∃ added, u.Extends added v := by
  induction h with
  | refl => exact ⟨[], by simp, by simp, by simp, by simp, by simp [hopen], List.prefix_rfl⟩
  | report _ context ih =>
    obtain ⟨added, hv⟩ := ih
    exact ⟨added, hv.routines, hv.known_eq, hv.mem_identities, hv.fresh, hv.opened, hv.finished⟩
  | work _ hid hwork ih =>
    obtain ⟨added, hv⟩ := ih
    obtain ⟨context, symbols, f, hf, rfl⟩ := hwork
    exact ⟨added, hv.modify hid hf.identity_eq hv.opened hv.finished context symbols⟩
  | add _ _ _ hnew ih =>
    obtain ⟨added, hv⟩ := ih
    exact ⟨_, hv.add hnew⟩
  | @begin ids v id r _ hid _ _ _ ih =>
    obtain ⟨added, hv⟩ := ih
    have hopened : ∀ k ∈ id :: v.openRoutines, u.routines.size ≤ k := by
      intro k hk
      rcases List.mem_cons.mp hk with rfl | hk
      · exact hid
      · exact hv.opened k hk
    exact ⟨added, hv.modify (f := fun r => { r with phase := .started }) hid (fun _ => rfl) hopened
      hv.finished v.context v.symbols⟩
  | @finish ids v id r record _ hid _ _ _ _ ih =>
    obtain ⟨added, hv⟩ := ih
    have hopened : ∀ k ∈ v.openRoutines.erase id, u.routines.size ≤ k := fun k hk =>
      hv.opened k (List.mem_of_mem_erase hk)
    have hfinished : u.finished.toList <+: (v.finished.push record).toList := by
      rw [Array.toList_push]
      exact hv.finished.trans (List.prefix_append _ _)
    exact ⟨added, hv.modify (f := fun r => { r with phase := .ended }) hid (fun _ => rfl) hopened
      hfinished v.context v.symbols⟩

/-- The unit is what it was, apart from its reports. The set of its identities may have been put
together in another way, but has the same members. -/
def Restored (u v : UnitBuilder) : Prop :=
  ∃ context identities, (∀ x, x ∈ identities ↔ x ∈ u.identities) ∧
    v = { u with context, identities }

theorem Restored.refl (u : UnitBuilder) : u.Restored u := ⟨_, _, fun _ => Iff.rfl, rfl⟩

/-- **Rolling back takes away all that was added**, and nothing else. -/
theorem Moves.restored {ids : List Nat} (h : Moves u.routines.size u ids v)
    (hopen : u.openRoutines = []) : u.Restored (v.rollBack u.checkpoint) := by
  obtain ⟨added, hv⟩ := h.extends hopen
  -- what was there comes first and is untouched, in the routines as in the records
  have hroutines : v.routines.take u.routines.size = u.routines := by
    refine Array.ext_getElem? fun k => ?_
    rw [Array.take_eq_extract, Array.getElem?_extract]
    split
    · next hk => rw [Nat.zero_add]; exact hv.routines k (by omega)
    · next hk =>
      have hsize := hv.size_le
      exact (Array.getElem?_eq_none (by omega)).symm
  have hopened : (v.rollBack u.checkpoint).openRoutines = u.openRoutines := by
    rw [hopen]
    refine List.filter_eq_nil_iff.mpr fun id hid hlt => ?_
    exact absurd (of_decide_eq_true hlt) (Nat.not_lt.mpr (hv.opened id hid))
  have hfinished : v.finished.take u.finished.size = u.finished := by
    refine Array.toList_inj.mp ?_
    rw [Array.take_eq_extract, Array.toList_extract]
    simpa using (List.prefix_iff_eq_take.mp hv.finished).symm
  have hdropped : (v.routines.toList.drop u.routines.size).map Routine.identity = added := by
    have hknown : v.known.drop u.known.length = added := by rw [hv.known_eq, List.drop_left]
    rwa [length_known, known, ← List.map_drop] at hknown
  refine ⟨v.context, (v.rollBack u.checkpoint).identities, ?_, ?_⟩
  · intro x
    change x ∈ release v.identities (v.routines.toList.drop u.routines.size) ↔ _
    rw [mem_release, hdropped, hv.mem_identities]
    -- an added identity was free, so none that was taken before is released
    have hfresh := hv.fresh x
    tauto
  · obtain ⟨_, _, _, _, _, _, rfl⟩ := h.frame
    unfold rollBack
    congr 1

end UnitBuilder

namespace Build

open UnitBuilder

theorem ends_attempt {α : Type} {step : Build α} {u : UnitBuilder}
    {post : α → UnitBuilder → Prop} {fail : Error → UnitBuilder → Prop}
    (h : Ends step u post fun e v => fail e (v.rollBack u.checkpoint)) :
    Ends (attempt step) u post fail := by
  cases hstep : step u with
  | ok x v =>
    have hrun : attempt step u = .ok x v := by simp only [attempt, hstep]
    exact Ends.of_ok hrun (h.ok hstep)
  | error e v =>
    have hrun : attempt step u = .error e (v.rollBack u.checkpoint) := by
      simp only [attempt, hstep]
    exact Ends.of_error hrun (h.error hstep)

/-- How the end of a unit comes out: the unit has been assembled and is ended, or it is what it
was. -/
theorem ends_finish_restored {u : UnitBuilder} :
    Ends finish u
      (fun _ v => u.phase = .started ∧ u.openRoutines = [] ∧ ∃ w context bytes,
        assemble u = .ok bytes w ∧ v = { w with context, bytes, phase := .ended })
      fun _ v => u.Restored v := by
  refine Ends.bind (ends_requirePhase (fun _ _ => .refl u) fun hstarted => ?_)
  refine Ends.bind (Ends.get ?_)
  dsimp only
  split
  · next hempty =>
    have hopen : u.openRoutines = [] := List.isEmpty_iff.mp hempty
    refine Ends.bind (ends_attempt ?_)
    cases hassemble : assemble u with
    | ok bytes w =>
      refine Ends.of_ok hassemble (Ends.bind (Ends.modify (Ends.bind (Ends.get ?_))))
      exact Ends.bind (Ends.modify ⟨hstarted, hopen, w, _, bytes, rfl, rfl⟩)
    | error e w =>
      obtain ⟨ids, hmoves⟩ := ends_assemble_supplies.error hassemble
      exact Ends.of_error hassemble (hmoves.restored hopen)
  · refine Ends.bind (Ends.get (Ends.bind ?_))
    exact .refl u

/-- **A unit that cannot be ended is what it was.** Whatever kept the unit from being ended, and
however far it came, its phase, its routines with their code and phases, their identities, the open
ones, the records, the fields, the constants with the accessors that were asked for, and the symbols
are those of before. -/
theorem finish_restores {u v : UnitBuilder} {e : Error} (h : Build.finish u = .error e v) :
    v.phase = u.phase ∧ v.routines = u.routines ∧
      v.identities.toList = u.identities.toList ∧ v.openRoutines = u.openRoutines ∧
      v.finished = u.finished ∧ v.fields = u.fields ∧ v.pool = u.pool ∧ v.symbols = u.symbols ∧
      v.name = u.name ∧ v.source = u.source ∧ v.strict = u.strict ∧ v.bytes = u.bytes := by
  obtain ⟨context, identities, hmem, rfl⟩ := ends_finish_restored.error h
  refine ⟨rfl, rfl, ?_, rfl, rfl, rfl, rfl, rfl, rfl, rfl, rfl, rfl⟩
  exact Std.TreeSet.equiv_iff_toList_eq.mp (.of_forall_mem_iff hmem)

end Build

/-- A unit with an ended routine, and with one that has the identity of the accessor for maps. The
accessor for strings is asked for as well, and it comes before. -/
def clashingUnit : UnitBuilder :=
  leaves (do
    Build.begin
    let main ← Build.routine (Flags.ofList [.isStatic]) "main" { result := .void }
    Build.beginRoutine main
    Build.emission main .returnVoid
    Build.endRoutine main
    Build.request .map
    Build.request .string
    let signature : Signature := { result := .map, params := [.int] }
    discard (Build.routine (Flags.ofList [.isStatic]) "$getMap" signature))
    (.new {} "unit" "source" true)

/-- The accessor for strings was there when the unit could not be ended, and is gone. The identity
that was taken still is. -/
theorem Build.clashingUnit_restored : ∃ e v, Build.finish clashingUnit = .error e v ∧
    (leaves Build.assemble clashingUnit).entryPoints =
      [("main()V" : Text), ("$getString(I)T" : Text)] ∧
    v.entryPoints = [("main()V" : Text)] ∧ v.phase = .started ∧
    v.identities.toList = [("$getMap(I)M" : Text), ("main()V" : Text)] ∧
    v.routines = clashingUnit.routines ∧ v.pool = clashingUnit.pool ∧
    v.symbols = clashingUnit.symbols := by
  have hrun : Build.finish.run' clashingUnit = none := by decide +kernel
  obtain ⟨e, v, hfinish⟩ := exists_of_run'_eq_none hrun
  obtain ⟨hphase, hroutines, hidentities, -, hfinished, -, hpool, hsymbols, -⟩ :=
    Build.finish_restores hfinish
  refine ⟨e, v, hfinish, by decide +kernel, ?_, ?_, ?_, hroutines, hpool, hsymbols⟩
  · rw [UnitBuilder.entryPoints, hfinished]
    decide +kernel
  · rw [hphase]
    decide +kernel
  · rw [hidentities]
    decide +kernel

end Bytecode
