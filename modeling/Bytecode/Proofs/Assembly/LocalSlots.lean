import Mathlib
import Bytecode.Proofs.Assembly.Rejection

/-!
# Slots of locals

Locals are defined one by one, in between other calls, and some of the calls fail. A local takes the
slots right after those of the local before it, as many as its type is wide, and nothing but a new
local takes a slot. So no two locals share one, and there are no gaps.

The invariant is about slots in order: laid end to end, the slots of the locals are all slots up to
their number. That no two locals overlap is a matter of this one equation, since no number appears
twice in a range.

## Main definitions

* `Assembly.defined`: the locals that are defined in the course of calls
* `Locals.Tiled`: the slots are those of the given locals, one after the other

## Main results

* `Locals.Tiled.define`: a new local takes the next slots
* `Emit.ends_call_tiled`: what one call does to the slots
* `Emit.locals_tile`: locals never overlap, and each is found at its first slot only
-/

namespace Bytecode

/-- A local that was defined: its first slot and its type. -/
structure DefinedLocal where
  slot : UInt16
  type : ValueType

/-- The slots that a local takes. -/
def DefinedLocal.slots (x : DefinedLocal) : List Nat := List.range' x.slot.toNat x.type.width

namespace Assembly

/-- The local that a call defines, if it is a call to define one and is granted. -/
def definedBy (s : Assembly) : Call → List DefinedLocal
  | .request (.defineLocal t) =>
    match Emit.defineLocal t s with
    | .ok slot _ => [⟨slot, t⟩]
    | .error _ _ => []
  | _ => []

/-- The locals that are defined in the course of calls, in order. -/
def defined (s : Assembly) : List Call → List DefinedLocal
  | [] => []
  | c :: calls => s.definedBy c ++ (leaves (Emit.call c) s).defined calls

end Assembly

/-! ## Locals in a row -/

namespace Locals

variable {l : Locals} {t t' : ValueType} {k : Nat} {slot : UInt16} {locals : List DefinedLocal}

/-- A new local is found at the first slot that was free, and all others are where they were. The
upper half of a wide value is not found at all. -/
theorem type?_define_eq_some_iff (ht : t ≠ .void) :
    (l.define t).type? k = some t' ↔ l.type? k = some t' ∨ k = l.slots ∧ t' = t := by
  constructor
  · intro h
    obtain ⟨hk, hvoid⟩ := type?_eq_some.mp h
    rw [toList_define, List.getElem?_append, l.length_toList] at hk
    split at hk
    · exact .inl (type?_eq_some.mpr ⟨hk, hvoid⟩)
    · next hnew =>
      -- what stands in the new slots is the type, and void in the second one of two
      refine .inr ?_
      have hfirst : ∀ i, (slotsFor t).reverse[i]? = some t' → i = 0 ∧ t' = t := by
        intro i hi
        unfold slotsFor at hi
        split at hi
        · rcases i with _ | _ | i
          · exact ⟨rfl, (Option.some.inj hi).symm⟩
          · exact absurd (Option.some.inj hi).symm hvoid
          · cases hi
        · rcases i with _ | i
          · exact ⟨rfl, (Option.some.inj hi).symm⟩
          · cases hi
      obtain ⟨hzero, htype⟩ := hfirst _ hk
      exact ⟨by omega, htype⟩
  · rintro (hold | ⟨rfl, rfl⟩)
    · exact (l.extends_define t).type? hold
    · exact l.type?_define ht

/-- **The slots are those of the given locals**, one after the other. A local is found at its first
slot, and at no other. -/
structure Tiled (l : Locals) (locals : List DefinedLocal) : Prop where
  slots_eq : locals.flatMap DefinedLocal.slots = List.range l.slots
  type?_iff : ∀ k t, l.type? k = some t ↔ ∃ x ∈ locals, x.slot.toNat = k ∧ x.type = t
  slots_le : l.slots ≤ 65535

theorem Tiled.empty : Tiled {} [] := by
  refine ⟨rfl, fun k t => ?_, Nat.zero_le _⟩
  simp [type?]

/-- A new local takes the next slots. -/
theorem Tiled.define (h : l.Tiled locals) (ht : t ≠ .void) (hslot : slot.toNat = l.slots)
    (hroom : l.slots + t.width ≤ 65535) : (l.define t).Tiled (locals ++ [⟨slot, t⟩]) := by
  refine ⟨?_, fun k t' => ?_, ?_⟩
  · rw [List.flatMap_append, h.slots_eq, List.flatMap_singleton, DefinedLocal.slots, hslot,
      l.slots_define ht, List.range_add, List.range'_eq_map_range]
  · rw [type?_define_eq_some_iff ht, h.type?_iff]
    simp only [List.mem_append, List.mem_singleton]
    constructor
    · rintro (⟨x, hx, hfound⟩ | ⟨rfl, rfl⟩)
      · exact ⟨x, .inl hx, hfound⟩
      · exact ⟨_, .inr rfl, hslot, rfl⟩
    · rintro ⟨x, hx | rfl, hfound⟩
      · exact .inl ⟨x, hx, hfound⟩
      · exact .inr ⟨hfound.1.symm.trans hslot, hfound.2.symm⟩
  · rw [l.slots_define ht]
    exact hroom

/-- No two locals share a slot, since none is listed twice. -/
theorem Tiled.pairwise_disjoint (h : l.Tiled locals) :
    locals.Pairwise fun x y => List.Disjoint x.slots y.slots := by
  have hnodup : (locals.flatMap DefinedLocal.slots).Nodup := h.slots_eq ▸ List.nodup_range
  exact (List.nodup_flatMap.mp hnodup).2

end Locals

/-! ## Calls -/

namespace Emit

variable {s : Assembly} {t : ValueType} {locals : List DefinedLocal}

/-- How a local is defined: at the next slots, if its type has values and the slots are there. -/
theorem ends_defineLocal_cases (t : ValueType) (s : Assembly) :
    Ends (defineLocal t) s
      (fun slot s' => t ≠ .void ∧ s.assembler.locals.slots + t.width ≤ 65535 ∧
        slot.toNat = s.assembler.locals.slots ∧
        s' = { s with assembler :=
          { s.assembler with locals := s.assembler.locals.define t } })
      fun _ s' => (t = .void ∨ 65535 < s.assembler.locals.slots + t.width) ∧ s' = s := by
  by_cases hvoid : t = .void
  · subst hvoid
    exact Ends.of_error (defineLocal_void s) ⟨.inl rfl, rfl⟩
  · by_cases hfull : 65535 < s.assembler.locals.slots + t.width
    · exact Ends.of_error (defineLocal_of_full hvoid hfull) ⟨.inr hfull, rfl⟩
    · have hroom := Nat.le_of_not_lt hfull
      refine Ends.of_ok (defineLocal_of_room hvoid hroom) ⟨hvoid, hroom, ?_, rfl⟩
      rw [Nat.toUInt16_eq, UInt16.toNat_ofNat_of_lt']
      exact Nat.lt_succ_of_le ((Nat.le_add_right _ _).trans hroom)

/-- A local is refused exactly if its type has no values, or there are too few slots for it. -/
theorem exists_defineLocal_error_iff (t : ValueType) (s : Assembly) :
    (∃ e s', defineLocal t s = .error e s') ↔
      t = .void ∨ 65535 < s.assembler.locals.slots + t.width := by
  have hcases := ends_defineLocal_cases t s
  constructor
  · rintro ⟨e, s', hrun⟩
    exact (hcases.error hrun).1
  · intro hrefused
    cases hrun : defineLocal t s with
    | ok slot s' =>
      obtain ⟨hvoid, hroom, -⟩ := hcases.ok hrun
      rcases hrefused with hvoid' | hfull
      · exact absurd hvoid' hvoid
      · omega
    | error e s' => exact ⟨e, s', rfl⟩

/-- Where no local starts there is no type. -/
theorem localType_of_none {slot : UInt16} (h : s.assembler.locals.type? slot.toNat = none) :
    localType slot s = .error (.typing s.assembler.routine (.noLocal slot)) s := by
  simp only [localType, Bind.bind, EStateM.bind, get, getThe, MonadStateOf.get, EStateM.get, h]
  rfl

/-- The type of a local is found exactly if the local starts at the slot. -/
theorem localType_eq_ok_iff (slot : UInt16) (t : ValueType) (s : Assembly) :
    localType slot s = .ok t s ↔ s.assembler.locals.type? slot.toNat = some t := by
  refine ⟨fun hrun => ?_, localType_eq⟩
  cases hfound : s.assembler.locals.type? slot.toNat with
  | none =>
    rw [localType_of_none hfound] at hrun
    cases hrun
  | some t' =>
    rw [localType_eq hfound] at hrun
    cases hrun
    rfl

/-- Only a call to define a local changes the locals. -/
theorem ends_request_locals {r : Request} (hr : ∀ t, r ≠ .defineLocal t) (hs : s.Linked) :
    Ends (request r) s (fun _ s' => s'.assembler.locals = s.assembler.locals)
      fun _ s' => s'.assembler.locals = s.assembler.locals := by
  cases r with
  | openCode | close | newLabel => exact rfl
  | defineLocal t => exact absurd rfl (hr t)
  | bind label =>
    refine ends_bind.mono ?_ ?_
    · rintro - s' ⟨l, stack, hbound⟩
      rw [hbound.eq]
    · rintro - s' rfl
      rfl
  | emission e =>
    refine (ends_emission hs.wellFormed.noVoid).mono ?_ fun _ s' he => ?_
    · rintro - s' ⟨symbol, stack, he⟩
      rw [he.assembler_eq]
      rfl
    · cases he with
      | taken => rfl
      | written => rfl

/-- **What one call does to the slots**, granted or not: it takes those of the local that it
defines, if any. -/
theorem ends_call_tiled (c : Call) (hs : s.Linked) (h : s.assembler.locals.Tiled locals) :
    Ends (call c) s (fun _ s' => s'.assembler.locals.Tiled (locals ++ s.definedBy c))
      fun _ s' => s'.assembler.locals.Tiled (locals ++ s.definedBy c) := by
  -- all other calls define no local and leave the locals alone
  have hsame : ∀ s' : Assembly, s'.assembler.locals = s.assembler.locals →
      s'.assembler.locals.Tiled (locals ++ []) := by
    intro s' hlocals
    rw [hlocals, List.append_nil]
    exact h
  cases c with
  | finish =>
    refine Ends.map (ends_finish (fun _ => hsame s rfl) fun done hdone => hsame _ ?_)
    obtain ⟨code, hfill, hsize, -, rfl⟩ := Assembler.complete_eq_ok hdone
    rfl
  | reference text => exact Ends.map (ends_intern (fun _ => hsame s rfl) fun _ _ _ => hsame _ rfl)
  | request r =>
    by_cases hr : ∃ t, r = .defineLocal t
    · obtain ⟨t, rfl⟩ := hr
      have hcases := ends_defineLocal_cases t s
      refine Ends.map ?_
      cases hrun : defineLocal t s with
      | ok slot s' =>
        obtain ⟨hvoid, hroom, hslot, rfl⟩ := hcases.ok hrun
        have hnew : s.definedBy (.request (.defineLocal t)) = [⟨slot, t⟩] := by
          simp only [Assembly.definedBy, hrun]
        refine Ends.of_ok hrun ?_
        rw [hnew]
        exact h.define hvoid hslot hroom
      | error e s' =>
        obtain ⟨-, rfl⟩ := hcases.error hrun
        have hnone : s'.definedBy (.request (.defineLocal t)) = [] := by
          simp only [Assembly.definedBy, hrun]
        refine Ends.of_error hrun ?_
        rw [hnone]
        exact hsame s' rfl
    · have hnone : s.definedBy (.request r) = [] := by
        cases r with
        | defineLocal t => exact absurd ⟨t, rfl⟩ hr
        | _ => rfl
      rw [hnone]
      exact (ends_request_locals (fun t heq => hr ⟨t, heq⟩) hs).mono (fun _ => hsame)
        fun _ => hsame

end Emit

/-- The slots stay those of the locals through any calls. -/
theorem Assembly.Linked.tiled_after {s : Assembly} {locals : List DefinedLocal} (hs : s.Linked)
    (h : s.assembler.locals.Tiled locals) (calls : List Call) :
    (s.after calls).assembler.locals.Tiled (locals ++ s.defined calls) := by
  induction calls generalizing s locals with
  | nil =>
    rw [defined, List.append_nil]
    exact h
  | cons c calls ih =>
    have hlinked : (leaves (Emit.call c) s).Linked := (Emit.safe_call c s hs).leaves.linked
    have hrest := ih hlinked (Emit.ends_call_tiled c hs h).leaves
    rwa [List.append_assoc] at hrest

/-- **Locals never overlap.** Whatever is asked of an assembler, granted or not: the slots of the
locals that were defined are disjoint, and laid end to end they are all slots below the number of
slots, of which there are 65535 at most. A slot has a type exactly if a local of this type starts
there, and no type otherwise. A new local is refused exactly if it is void or if there are fewer
slots left than it needs, and then nothing changes. -/
theorem Emit.locals_tile (routine owner : Text) (returnType : ValueType) (calls : List Call) :
    let s := (Assembly.start routine returnType owner).after calls
    let locals := (Assembly.start routine returnType owner).defined calls
    let maxLocals := s.assembler.locals.slots
    (locals.Pairwise fun x y => List.Disjoint x.slots y.slots) ∧
      locals.flatMap DefinedLocal.slots = List.range maxLocals ∧
      maxLocals ≤ 65535 ∧
      (∀ slot t, Emit.localType slot s = .ok t s ↔ ⟨slot, t⟩ ∈ locals) ∧
      (∀ slot, (∀ t, ⟨slot, t⟩ ∉ locals) →
        Emit.localType slot s = .error (.typing s.assembler.routine (.noLocal slot)) s) ∧
      ∀ t, ((∃ e s', Emit.defineLocal t s = .error e s') ↔
          t = .void ∨ 65535 - maxLocals < t.width) ∧
        ∀ e s', Emit.defineLocal t s = .error e s' → s' = s := by
  intro s locals maxLocals
  have hstart := (Assembly.Transcribes.start routine returnType owner).linked
  have htiled : s.assembler.locals.Tiled locals := hstart.tiled_after .empty calls
  -- the slot of a local is known by its number
  have hmem : ∀ (slot : UInt16) t, s.assembler.locals.type? slot.toNat = some t ↔
      ⟨slot, t⟩ ∈ locals := by
    intro slot t
    rw [htiled.type?_iff]
    constructor
    · rintro ⟨x, hx, hslot, rfl⟩
      rwa [← UInt16.toNat_inj.mp hslot]
    · intro hx
      exact ⟨⟨slot, t⟩, hx, rfl, rfl⟩
  refine ⟨htiled.pairwise_disjoint, htiled.slots_eq, htiled.slots_le, fun slot t => ?_,
    fun slot hnone => ?_, fun t => ⟨?_, fun e s' hrun => ?_⟩⟩
  · rw [Emit.localType_eq_ok_iff, hmem]
  · refine Emit.localType_of_none (Option.eq_none_iff_forall_ne_some.mpr fun t ht => ?_)
    exact hnone t ((hmem slot t).mp ht)
  · have hle := htiled.slots_le
    rw [Emit.exists_defineLocal_error_iff]
    refine or_congr_right ?_
    omega
  · exact ((Emit.ends_defineLocal_cases t s).error hrun).2

end Bytecode
