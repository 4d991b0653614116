import Mathlib
import Bytecode.Proofs.Instruction.Layout
import Bytecode.Proofs.Unit.Opening

/-!
# The slots of a routine

What a routine receives takes its first slots, one after the other, and what its prologue fills
takes the next ones. The signature of a function, the slots of its routine and the prologue are
derived from its attributes in three places. They fit together: the slots have the types of the
signature, and the prologue takes the callee and the parent scope from where they are.

## Main definitions

* `startsFrom`: the slots at which locals start
* `Locals.Lays`: locals that have been defined one after the other
* `Layout.arriving`, `Layout.slots`: the slots of a routine in their order
* `Routine.LaidOut`: the slots of a routine for a function
* `Routine.Prepared`: the code of a routine that has just been begun

## Main results

* `Define.lays_function`, `Define.lays_synthetic`: the slots of new routines
* `Routine.laidOut_prologue`: what the prologue of a function makes of its routine
* `Build.newRoutine_slots`: the slots of the routines that are opened or made
-/

namespace Bytecode

/-! ### Locals in a row -/

/-- The slots at which locals of the given types start, the first one at `base`. -/
def startsFrom (base : Nat) : List ValueType → List Nat
  | [] => []
  | t :: types => base :: startsFrom (base + t.width) types

theorem startsFrom_append (base : Nat) (types more : List ValueType) :
    startsFrom base (types ++ more) =
      startsFrom base types ++ startsFrom (base + slotsOf types) more := by
  induction types generalizing base with
  | nil => rfl
  | cons t types ih =>
    have hsum : slotsOf (t :: types) = t.width + slotsOf types := rfl
    rw [List.cons_append, startsFrom, startsFrom, ih, List.cons_append, hsum, Nat.add_assoc]

/-- Locals of one slot each take all slots from the first one on. -/
theorem startsFrom_of_narrow {types : List ValueType} (h : ∀ t ∈ types, t.width = 1) (base : Nat) :
    startsFrom base types = List.range' base types.length ∧ slotsOf types = types.length := by
  induction types generalizing base with
  | nil => exact ⟨rfl, rfl⟩
  | cons t types ih =>
    rw [List.forall_mem_cons] at h
    obtain ⟨hstarts, hsum⟩ := ih h.2 (base + 1)
    have hcons : slotsOf (t :: types) = t.width + slotsOf types := rfl
    rw [startsFrom, h.1, hstarts, hcons, hsum, h.1, Nat.add_comm 1]
    exact ⟨rfl, rfl⟩

namespace Locals

variable {l l' l'' : Locals} {slots more : List UInt16} {types rest : List ValueType}

/-- Locals of the given types have been defined after those of `l`, at the given slots. -/
structure Lays (l : Locals) (slots : List UInt16) (types : List ValueType) (l' : Locals) :
    Prop where
  noVoid : .void ∉ types
  starts : slots.map UInt16.toNat = startsFrom l.slots types
  typed : List.Forall₂ (fun slot t => l'.type? slot.toNat = some t) slots types
  eq : l' = l.defineAll types

theorem Lays.nil (l : Locals) : l.Lays [] [] l := ⟨List.not_mem_nil, rfl, .nil, rfl⟩

theorem lays_define {t : ValueType} {slot : UInt16} (ht : t ≠ .void)
    (hslot : slot.toNat = l.slots) : l.Lays [slot] [t] (l.define t) where
  noVoid := void_notMem_cons ht List.not_mem_nil
  starts := congrArg (fun n => [n]) hslot
  typed := .cons (hslot ▸ l.type?_define ht) .nil
  eq := rfl

theorem lays_defineIf {wanted : Bool} {found : Option UInt16} {t : ValueType} (ht : t ≠ .void)
    (h : found.toList.map UInt16.toNat = if wanted then [l.slots] else []) :
    l.Lays found.toList (if wanted then [t] else []) (l.defineAll (if wanted then [t] else [])) ∧
      found.isSome = wanted := by
  cases wanted with
  | false =>
    cases found with
    | none => exact ⟨.nil l, rfl⟩
    | some slot => cases h
  | true =>
    cases found with
    | none => cases h
    | some slot => exact ⟨lays_define ht (List.cons.inj h).1, rfl⟩

/-- Locals keep their slots and their types when more of them are defined. -/
theorem Lays.trans (h : l.Lays slots types l') (h' : l'.Lays more rest l'') :
    l.Lays (slots ++ more) (types ++ rest) l'' where
  noVoid := by
    rw [List.mem_append, not_or]
    exact ⟨h.noVoid, h'.noVoid⟩
  starts := by
    have hbase : l'.slots = l.slots + slotsOf types := by rw [h.eq, slots_defineAll h.noVoid]
    rw [List.map_append, h.starts, h'.starts, hbase, startsFrom_append]
  typed := by
    have hextends : l''.Extends l' := h'.eq ▸ l'.extends_defineAll rest
    exact List.rel_append (h.typed.imp fun _ _ hslot => hextends.type? hslot) h'.typed
  eq := by rw [h'.eq, h.eq, defineAll, defineAll, defineAll, List.foldl_append]

/-- The first locals are numbered one by one when each takes one slot, and there are no others. -/
theorem Lays.numbered (h : Lays {} slots types l') (hnarrow : ∀ t ∈ types, t.width = 1) :
    slots.map UInt16.toNat = List.range slots.length ∧ slots.length = slotsOf types ∧
      l'.slots = slots.length := by
  obtain ⟨hstarts, hsum⟩ := startsFrom_of_narrow hnarrow 0
  have hlength : slots.length = types.length := h.typed.length_eq
  refine ⟨?_, hlength.trans hsum.symm, ?_⟩
  · rw [h.starts, hlength, List.range_eq_range']
    exact hstarts
  · rw [h.eq, slots_defineAll h.noVoid, hsum, hlength]
    exact Nat.zero_add _

end Locals

namespace Define

variable {s b : Assembler} {t : ValueType}

theorem lays_slot {x : UInt16} (h : slot t s = .ok (x, b)) : s.locals.Lays [x] [t] b.locals := by
  obtain ⟨rfl, hslot, htype⟩ := Assembler.defineLocal_eq_ok h
  exact Locals.lays_define (Locals.type?_ne_void htype) hslot

theorem lays_slotIf {wanted : Bool} {found : Option UInt16}
    (h : slotIf wanted t s = .ok (found, b)) :
    s.locals.Lays found.toList (if wanted then [t] else []) b.locals ∧ found.isSome = wanted := by
  cases wanted with
  | false =>
    cases h
    exact ⟨.nil _, rfl⟩
  | true =>
    obtain ⟨⟨x, b'⟩, hx, h⟩ := exists_of_except_bind h
    cases h
    exact ⟨lays_slot hx, rfl⟩

theorem lays_mapM_slot {types : List ValueType} {slots : List UInt16}
    (h : types.mapM slot s = .ok (slots, b)) : s.locals.Lays slots types b.locals := by
  induction types generalizing s slots with
  | nil =>
    cases h
    exact .nil _
  | cons t types ih =>
    rw [List.mapM_cons] at h
    obtain ⟨⟨x, s'⟩, hx, h⟩ := exists_of_except_bind h
    obtain ⟨⟨xs, b'⟩, hxs, h⟩ := exists_of_except_bind h
    cases h
    exact (lays_slot hx).trans (ih hxs)

end Define

/-! ### New routines -/

namespace Layout

/-- The slots of what a routine receives, in their order. -/
def arriving (layout : Layout) : List UInt16 :=
  layout.callee.toList ++ (layout.parentScope.toList ++ (layout.receiver.toList ++
    (layout.varArgs.toList ++ layout.params)))

/-- All slots of a routine, in their order: those of what it receives, then those that its prologue
fills. -/
def slots (layout : Layout) : List UInt16 :=
  layout.arriving ++ (layout.self.toList ++ layout.scope.toList)

/-- What a routine for a function with the given attributes receives. -/
structure Receives (layout : Layout) (a : Attributes) (paramCount : Nat) : Prop where
  callee : layout.callee.isSome = a.needsCallee
  parentScope : layout.parentScope.isSome = a.needsParentScope
  receiver : layout.receiver.isSome = true
  varArgs : layout.varArgs.isSome = a.isVarArg
  params : layout.params.length = if a.isVarArg then 0 else paramCount

/-- The prologue does not depend on what stands for labels. -/
theorem map_prologue {α β : Type} (f : α → β) (layout : Layout) (size : UInt16) :
    (layout.prologue size).map (Instruction.map f) = layout.prologue size := by
  obtain ⟨callee, parentScope, receiver, varArgs, scope, self, params⟩ := layout
  cases self <;> cases scope <;> cases callee <;> cases parentScope <;> rfl

end Layout

namespace Define

variable {s b : Assembler}

/-- **The slots of a routine for a function** are those of its signature. -/
theorem lays_function {a : Attributes} {paramCount : Nat} {layout : Layout}
    (h : function a paramCount s = .ok (layout, b)) :
    s.locals.Lays layout.arriving (Signature.ofAttributes a paramCount).params b.locals ∧
      layout.Receives a paramCount := by
  obtain ⟨⟨callee, s₁⟩, hcallee, h⟩ := exists_of_except_bind h
  obtain ⟨⟨parentScope, s₂⟩, hparent, h⟩ := exists_of_except_bind h
  obtain ⟨⟨receiver, s₃⟩, hreceiver, h⟩ := exists_of_except_bind h
  obtain ⟨⟨varArgs, s₄⟩, hvarArgs, h⟩ := exists_of_except_bind h
  obtain ⟨hlays₁, hcalleeSome⟩ := lays_slotIf hcallee
  obtain ⟨hlays₂, hparentSome⟩ := lays_slotIf hparent
  obtain ⟨hlays₄, hvarSome⟩ := lays_slotIf hvarArgs
  -- arguments are either one array or a slot each
  have hlast : ∃ params,
      layout = { callee, parentScope, receiver := some receiver, varArgs, params } ∧
      s₃.locals.Lays (varArgs.toList ++ params)
        (if a.isVarArg then [.objectArray] else List.replicate paramCount .object) b.locals ∧
      params.length = if a.isVarArg then 0 else paramCount := by
    cases hvar : a.isVarArg with
    | true =>
      rw [hvar] at h hlays₄
      cases h
      exact ⟨[], rfl, hlays₄.trans (.nil _), rfl⟩
    | false =>
      rw [hvar] at h hlays₄
      obtain ⟨⟨params, s₅⟩, hparams, h⟩ := exists_of_except_bind h
      cases h
      have hlays₅ := lays_mapM_slot hparams
      exact ⟨params, rfl, hlays₄.trans hlays₅,
        hlays₅.typed.length_eq.trans List.length_replicate⟩
  obtain ⟨params, rfl, hlays₃, hlength⟩ := hlast
  refine ⟨?_, hcalleeSome, hparentSome, rfl, hvarSome, hlength⟩
  simp only [Signature.ofAttributes, List.append_assoc]
  exact hlays₁.trans (hlays₂.trans ((lays_slot hreceiver).trans hlays₃))

end Define

/-! ### Routines for functions -/

namespace Attributes

/-- The types of the locals of a routine for a function that has just been begun. -/
def localTypes (a : Attributes) (paramCount : Nat) : List ValueType :=
  (Signature.ofAttributes a paramCount).params ++ (a.copies ++ a.records)

/-- Each local takes one slot. -/
theorem width_of_mem_localTypes (a : Attributes) (paramCount : Nat) :
    ∀ t ∈ a.localTypes paramCount, t.width = 1 := by
  intro t ht
  rcases List.mem_append.mp ht with ht | ht
  · rcases Signature.mem_params_ofAttributes ht with rfl | rfl | rfl | rfl <;> rfl
  · unfold copies records at ht
    have hfilled : t = .callee ∨ t = .scope := by
      split at ht <;> split at ht <;> simp_all
    rcases hfilled with rfl | rfl <;> rfl

/-- A function that is known to itself needs its callee. -/
theorem needsCallee_of_self {a : Attributes} (h : a.violated? = none)
    (hself : a.usesSelfSymbol = true) : a.needsCallee = true := by
  by_contra hcallee
  simp only [violated?] at h
  grind

end Attributes

namespace Routine

/-- **The slots of a routine for a function** with the given attributes. They are numbered in their
order, and have the types of the signature and of what the prologue fills. -/
structure LaidOut (r : Routine) (a : Attributes) (paramCount : Nat) : Prop where
  signature_eq : r.signature = Signature.ofAttributes a paramCount
  receives : r.layout.Receives a paramCount
  self : r.layout.self.isSome = a.usesSelfSymbol
  scope : r.layout.scope.isSome = a.hasScopeBlock
  /-- There is something to copy. -/
  copied : a.usesSelfSymbol = true → r.layout.callee.isSome = true
  numbered : r.layout.slots.map UInt16.toNat = List.range r.layout.slots.length
  typed : List.Forall₂ (fun slot t => r.assembler.locals.type? slot.toNat = some t) r.layout.slots
    (r.signature.params ++ (a.copies ++ a.records))
  arriving : r.layout.arriving.length = r.signature.paramSlots
  all : r.assembler.locals.slots = r.layout.slots.length

/-- The code of a routine that has just been begun: its prologue, after which nothing is left on the
stack. -/
structure Prepared (r : Routine) (scopeSize : Nat) : Prop where
  code : r.assembler.instructions = r.layout.prologue scopeSize.toUInt16
  stack : r.assembler.stack.types = []

variable {r : Routine} {name function : Text} {a : Attributes} {paramCount scopeSize : Nat}

/-- The code decodes to the prologue. -/
theorem Prepared.decode (h : r.Prepared scopeSize) :
    ∃ found, Code.decode (Code.encode r.assembler.resolved) = .ok found ∧
      found.map Placed.instruction = r.layout.prologue scopeSize.toUInt16 := by
  refine ⟨_, Code.decode_encode _, ?_⟩
  rw [Code.placed, Code.map_instruction_placedFrom, Assembler.resolved, h.code, Layout.map_prologue]

/-- A scope record is made by the instruction before the last one of the prologue. -/
theorem LaidOut.getElem?_prologue {α : Type} (h : r.LaidOut a paramCount)
    (hblock : a.hasScopeBlock = true) (size : UInt16) :
    (r.layout.prologue size : List (Instruction α))[(if a.usesSelfSymbol then 2 else 0) + 1]? =
      some ⟨.newScope, size⟩ := by
  obtain ⟨scope, hscope⟩ := Option.isSome_iff_exists.mp (h.scope.trans hblock)
  have hself := h.self
  unfold Layout.prologue
  rw [hscope]
  cases huses : a.usesSelfSymbol with
  | false =>
    rw [huses, Option.isSome_eq_false_iff, Option.isNone_iff_eq_none] at hself
    rw [hself]
    rfl
  | true =>
    rw [huses] at hself
    obtain ⟨self, hself⟩ := Option.isSome_iff_exists.mp hself
    obtain ⟨callee, hcallee⟩ := Option.isSome_iff_exists.mp (h.copied huses)
    rw [hself, hcallee]
    rfl

/-- What a routine for a function starts with. -/
theorem lays_ofFunction (h : ofFunction name function a paramCount scopeSize = .ok r) :
    Locals.Lays {} r.layout.arriving (Signature.ofAttributes a paramCount).params
        r.assembler.locals ∧
      r.layout.Receives a paramCount ∧ r.scopeSize = scopeSize := by
  unfold ofFunction at h
  dsimp only at h
  split at h
  · cases h
  · obtain ⟨⟨layout, assembler⟩, hlayout, h⟩ := exists_of_except_bind h
    cases h
    obtain ⟨hlays, hreceives⟩ := Define.lays_function hlayout
    exact ⟨hlays, hreceives, rfl⟩

/-- **What the prologue of a function makes of its routine.** -/
theorem laidOut_prologue {assembler : Assembler} {layout : Layout} {symbols : SymbolTable}
    (hr : ofFunction name function a paramCount scopeSize = .ok r) (hrules : a.violated? = none)
    (hprologue : Emit.prologue a r.layout r.scopeSize
      ⟨{ r.assembler with isOpen := true }, symbols⟩ = .ok layout ⟨assembler, symbols⟩) :
    LaidOut { r with phase := .started, assembler, layout } a paramCount ∧
      Prepared { r with phase := .started, assembler, layout } scopeSize := by
  obtain ⟨hlays, hreceives, hsize⟩ := lays_ofFunction hr
  have hblank := blank_ofFunction hr
  obtain ⟨hfilled, hself, hscope, hstanding⟩ :=
    (Emit.ends_prologue hblank.typed.callee hblank.typed.parentScope hblank.stands).ok hprologue
  rw [hsize] at hstanding
  have hreceives' : layout.Receives a paramCount := hfilled ▸ { hreceives with }
  have harriving : layout.arriving = r.layout.arriving := by
    rw [hfilled]
    rfl
  obtain ⟨hcopy, hselfSome⟩ : r.assembler.locals.Lays layout.self.toList a.copies
      (r.assembler.locals.defineAll a.copies) ∧ layout.self.isSome = a.usesSelfSymbol :=
    Locals.lays_defineIf (by decide) hself
  obtain ⟨hrecord, hscopeSome⟩ : (r.assembler.locals.defineAll a.copies).Lays layout.scope.toList
      a.records ((r.assembler.locals.defineAll a.copies).defineAll a.records) ∧
        layout.scope.isSome = a.hasScopeBlock :=
    Locals.lays_defineIf (by decide) hscope
  -- what is received, what is copied and the scope record follow each other
  have hall : Locals.Lays {} layout.slots (a.localTypes paramCount) assembler.locals := by
    have h := hlays.trans (hcopy.trans hrecord)
    rw [← harriving] at h
    rw [hstanding.stands.locals_eq, List.foldl_append]
    exact h
  have hsignature : r.signature = Signature.ofAttributes a paramCount :=
    (Prod.mk.inj (titled_of_ofFunction hr)).2
  have hnarrow := a.width_of_mem_localTypes paramCount
  obtain ⟨hnumbered, -, hslots⟩ := hall.numbered hnarrow
  obtain ⟨-, hparams, -⟩ := hlays.numbered fun t ht => hnarrow t (List.mem_append_left _ ht)
  refine ⟨⟨hsignature, hreceives', hselfSome, hscopeSome, ?_, hnumbered, ?_, ?_, hslots⟩, ?_,
    hstanding.stands.types_eq⟩
  · intro huses
    exact hreceives'.callee.trans (Attributes.needsCallee_of_self hrules huses)
  · show List.Forall₂ _ layout.slots (r.signature.params ++ _)
    rw [hsignature]
    exact hall.typed
  · show layout.arriving.length = r.signature.paramSlots
    rw [harriving, hsignature]
    exact hparams
  · show assembler.instructions = layout.prologue scopeSize.toUInt16
    rw [hstanding.code_eq, hblank.assembler_eq]
    rfl

end Routine

/-! ### Routines of a unit -/

namespace Build

variable {u v : UnitBuilder} {name : Text} {id : Nat}

/-- A routine that was opened for a function has its slots and its prologue. -/
theorem exists_laidOut {a : Attributes} {paramCount scopeSize : Nat}
    (h : openRoutine name a paramCount scopeSize u = .ok id v) :
    u.Openable name a paramCount scopeSize ∧ ∃ r, v.routines[id]? = some r ∧
      u.Opened name a paramCount id r v ∧ r.LaidOut a paramCount ∧ r.Prepared scopeSize := by
  obtain ⟨hopenable, r, assembler, layout, hr, hprologue, hopened⟩ :=
    (ends_openRoutine_made u name a paramCount scopeSize).ok h
  refine ⟨hopenable, _, ?_, hopened, Routine.laidOut_prologue hr hopenable.agrees hprologue⟩
  rw [hopened.eq, hopened.id_eq, Array.getElem?_push_size]

/-- The size of a scope record is within the limits of its operand. -/
theorem toNat_scopeSize {a : Attributes} {paramCount scopeSize : Nat}
    (h : u.Openable name a paramCount scopeSize) (hblock : a.hasScopeBlock = true) :
    scopeSize.toUInt16.toNat = scopeSize := by
  have hsmall : scopeSize ≤ 65535 := h.scope.resolve_right (by simp [hblock])
  rw [Nat.toUInt16_eq, UInt16.toNat_ofNat_of_lt' (Nat.lt_succ_of_le hsmall)]

end Build

end Bytecode
