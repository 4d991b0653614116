import Mathlib
import Bytecode.Proofs.Unit.Steps

/-!
# Accessors

Ending a unit adds a routine for each accessor that was asked for, and for maps one more that
replaces a constant. Each of them begins and ends before the next one, so their records come after
those of the unit, in the order of types.

## Main definitions

* `UnitBuilder.members`: what the ended routines are called
* `Pool.accessorMembers`: what the accessors of a type are called

## Main results

* `Build.ends_synthesize_member`: a synthesized routine leaves one record, under its name
* `Build.ends_finish_members`: an ended unit has the accessors that were asked for, and no other new
  routine
-/

namespace Bytecode

/-- What a routine is called: its name and its descriptor. -/
def RoutineRecord.member (r : RoutineRecord) : Text × Text := (r.name, r.descriptor)

theorem Routine.RecordedAs.member_eq {r : Routine} {record : RoutineRecord}
    (h : r.RecordedAs record) : record.member = (r.name, r.signature.descriptor) := by
  obtain ⟨assembler, hrecord⟩ := h
  obtain ⟨code, -, -, -, rfl⟩ := Routine.record_eq_ok hrecord
  rfl

theorem Routine.named_of_synthetic {flags : Flags} {name : Text} {signature : Signature}
    {r : Routine} (h : synthetic flags name signature = .ok r) :
    r.name = name ∧ r.signature = signature := by
  obtain ⟨_, -, h⟩ := exists_of_except_bind h
  cases h
  exact ⟨rfl, rfl⟩

namespace Pool

/-- What the accessor of a type is called, if it has one. -/
def getter (t : ValueType) : List (Text × Text) :=
  match accessorName t, accessorSignature t with
  | .ok name, .ok signature => [(name, signature.descriptor)]
  | _, _ => []

/-- What the routine that replaces a map is called. -/
def mapSetter : Text × Text := ("$setMap", "(IM)V")

/-- What the routines for the constants of a type are called. -/
def accessorMembers (t : ValueType) : List (Text × Text) :=
  getter t ++ if t = .map then [mapSetter] else []

end Pool

namespace UnitBuilder

variable {u v : UnitBuilder} {id : Nat} {r : Routine}

/-- What the ended routines are called, in order. -/
def members (u : UnitBuilder) : List (Text × Text) := u.finished.toList.map RoutineRecord.member

/-- The routine is called what it was. -/
def Named (u : UnitBuilder) (id : Nat) (name : Text) (signature : Signature) : Prop :=
  ∃ r, u.routines[id]? = some r ∧ r.name = name ∧ r.signature = signature

theorem Works.named {name : Text} {signature : Signature} (h : Works id u v)
    (hr : u.Named id name signature) : v.Named id name signature := by
  obtain ⟨_, _, f, hf, rfl⟩ := h
  obtain ⟨r, hr, hname, hsignature⟩ := hr
  obtain ⟨assembler, layout, hfr⟩ := hf r
  refine ⟨f r, by rw [Array.getElem?_modify, if_pos rfl, hr, Option.map_some], ?_, ?_⟩
  · rw [hfr]
    exact hname
  · rw [hfr]
    exact hsignature

theorem Works.finished_eq (h : Works id u v) : v.finished = u.finished := by
  obtain ⟨_, _, f, -, rfl⟩ := h
  rfl

theorem Begins.named {name : Text} {signature : Signature} (h : Begins id u v)
    (hr : u.Named id name signature) : v.Named id name signature := by
  obtain ⟨-, -, hwork⟩ := h
  refine hwork.named ?_
  obtain ⟨r, hr, hname, hsignature⟩ := hr
  refine ⟨{ r with phase := .started }, ?_, hname, hsignature⟩
  rw [withBegun, Array.getElem?_modify, if_pos rfl, hr, Option.map_some]

theorem Begins.finished_eq (h : Begins id u v) : v.finished = u.finished := h.2.2.finished_eq

end UnitBuilder

namespace Build

open UnitBuilder

variable {u : UnitBuilder}

/-- A synthesized routine leaves one record, under its name. -/
theorem ends_synthesize_member {flags : List Flag} {name : Text} {signature : Signature}
    {code : Nat → Build Unit} (hcode : ∀ id, Emits id (code id)) :
    Ends (synthesize flags name signature code) u
      (fun _ v => v.members = u.members ++ [(name, signature.descriptor)]) fun _ _ => True := by
  refine Ends.bind (ends_routine_synthetic.mono ?_ fun _ _ _ => trivial)
  rintro id v ⟨rfl, hstarted, new, hnew, -, rfl⟩
  obtain ⟨hname, hsignature⟩ := Routine.named_of_synthetic hnew
  have hnamed : (u.withRoutine new).Named u.routines.size name signature :=
    ⟨new, by simp [withRoutine], hname, hsignature⟩
  refine Ends.bind (ends_beginRoutine.mono (fun _ w hw => ?_) fun _ _ _ => trivial)
  -- the code only works on the routine, which stays open meanwhile
  have hemits : Keeps (Begins u.routines.size (u.withRoutine new)) (fun _ => True)
      (code u.routines.size) := by
    refine hcode _ _ _ (fun _ _ => trivial) fun e w hw => ?_
    exact (ends_onRoutine_works _).mono (fun _ _ hx => hw.work hx) fun _ _ _ => trivial
  refine Ends.bind ((hemits w hw).mono (fun _ x hx => ?_) fun _ _ _ => trivial)
  refine (ends_endRoutine hx.guards).mono ?_ fun _ _ _ => trivial
  rintro - _ ⟨y, r, record, hwork, hr, -, -, hrecord, rfl⟩
  -- the record is that of the routine which was added
  obtain ⟨r', hr', hname', hsignature'⟩ := (hx.work hwork).named hnamed
  obtain rfl : r' = r := Option.some.inj (hr'.symm.trans hr)
  have hfinished : y.finished = u.finished := (hx.work hwork).finished_eq
  simp only [members, withEnded, Array.toList_push, List.map_append, List.map_singleton, hfinished,
    hrecord.member_eq, hname', hsignature']

theorem ends_valueAccessor_members {flags : List Flag} {type : ValueType} :
    Ends (valueAccessor flags type) u (fun _ v => v.members = u.members ++ Pool.getter type)
      fun _ _ => True := by
  refine ends_valueAccessor_of (fun _ => trivial) fun name signature _ hname hsignature hcode => ?_
  rw [Pool.getter, hname, hsignature]
  exact ends_synthesize_member hcode

theorem ends_arrayAccessor_members {type : ValueType} :
    Ends (arrayAccessor type) u (fun _ v => v.members = u.members ++ Pool.getter type)
      fun _ _ => True := by
  refine ends_arrayAccessor_of (fun _ => trivial) fun name signature _ hname hsignature hcode => ?_
  rw [Pool.getter, hname, hsignature]
  exact ends_synthesize_member hcode

theorem ends_mapSetter_members :
    Ends mapSetter u (fun _ v => v.members = u.members ++ [Pool.mapSetter]) fun _ _ => True :=
  ends_mapSetter_of fun _ hcode => ends_synthesize_member hcode

/-- The accessors of a type are added. -/
theorem ends_accessor_members (type : ValueType) :
    Ends (accessor type) u (fun _ v => v.members = u.members ++ Pool.accessorMembers type)
      fun _ _ => True := by
  -- what is reported in the end does not matter
  have hone : type ≠ .map → Pool.accessorMembers type = Pool.getter type := by
    intro hne
    rw [Pool.accessorMembers, if_neg hne, List.append_nil]
  unfold accessor
  split
  · refine Ends.bind (ends_valueAccessor_members.mono (fun _ v hv => ?_) fun _ _ _ => trivial)
    rw [hone (by decide)]
    exact hv
  · refine Ends.bind (ends_valueAccessor_members.mono (fun _ v hv => ?_) fun _ _ _ => trivial)
    refine Ends.bind (ends_mapSetter_members.mono (fun _ w hw => ?_) fun _ _ _ => trivial)
    have hmembers : w.members = u.members ++ Pool.accessorMembers .map := by
      rw [hw, hv, List.append_assoc]
      rfl
    exact hmembers
  · next hmap =>
    refine Ends.bind (ends_arrayAccessor_members.mono (fun _ v hv => ?_) fun _ _ _ => trivial)
    rw [hone hmap]
    exact hv

/-- The accessors are added one after the other. -/
theorem ends_accessors_members (types : List ValueType) :
    Ends (types.forM accessor) u
      (fun _ v => v.members = u.members ++ types.flatMap Pool.accessorMembers)
      fun _ _ => True := by
  induction types generalizing u with
  | nil => exact (List.append_nil _).symm
  | cons type types ih =>
    refine Ends.bind ((ends_accessor_members type).mono (fun _ v hv => ?_) fun _ _ _ => trivial)
    refine ih.mono (fun _ w hw => ?_) fun _ _ _ => trivial
    rw [hw, hv, List.append_assoc, List.flatMap_cons]

/-- **An ended unit has the accessors that were asked for**, and no other new routine. -/
theorem ends_finish_members :
    Ends finish u
      (fun _ v => v.members = u.members ++ u.pool.accessors.flatMap Pool.accessorMembers)
      fun _ _ => True := by
  have hassemble := ends_assemble_of (fun _ _ => trivial) (ends_accessors_members u.pool.accessors)
  refine ends_finish_restored.mono ?_ fun _ _ _ => trivial
  rintro - _ ⟨-, -, w, context, bytes, hok, rfl⟩
  obtain ⟨hmembers, -⟩ := hassemble.ok hok
  exact hmembers

end Build

end Bytecode
