import Mathlib
import Bytecode.Proofs.Assembly.Symbols
import Bytecode.Proofs.Unit.Progress

/-!
# Routines side by side

Routines of a unit are under construction side by side, and share one symbol table. They do not
disturb each other. When requests to two routines are granted one routine after the other, they are
granted in every order that keeps the order for each of the routines, and what becomes of each
routine is the same but for the numbers of symbols.

A routine cannot tell how far the others have come, except by the symbols: a new one may find the
table full. That does not happen either. Whatever the order, the table holds no text that it does
not hold in the end, and there each of them has found a place.

## Main definitions

* `Build.play`: requests to several routines, in order
* `Assembly.Goes`: requests to one routine, between which the table may grow
* `Build.Awaits`: a unit that comes to what another one is, by requests still to be made
* `Interleave`: a merge of two lists

## Main results

* `Build.goes_of_play`: what a run means for one of the routines
* `Build.Awaits.step`: the next of the requests is granted
* `Build.exists_play`: requests are granted in every order that is the same for each routine
* `Build.play_interleave`: so they are in every interleaving
-/

namespace Bytecode

/-! ### Room in the symbol table of a unit -/

namespace UnitBuilder

variable {u v : UnitBuilder}

theorem Step.faithful (h : Step u v) (hu : u.Linked) (hfaithful : u.symbols.Faithful) :
    v.symbols.Faithful := by
  cases h with
  | symbol hintern => exact (hfaithful.intern hintern).1
  | code hr hs => exact hs.faithful (hu.routines _ _ hr) hfaithful
  | restore hrestored =>
    obtain ⟨_, _, -, rfl⟩ := hrestored
    exact hfaithful
  | _ => exact hfaithful

theorem Course.faithful (h : u.Course v) (hu : u.Linked) (hfaithful : u.symbols.Faithful) :
    v.symbols.Faithful := by
  induction h with
  | refl => exact hfaithful
  | step hcourse hstep ih => exact hstep.faithful (hcourse.linked_grows hu).1 ih
  | intern _ _ ih => exact ih
  | request _ _ ih => exact ih

end UnitBuilder

/-! ### Runs -/

/-- The requests to one routine, in order. -/
def Request.addressed (id : Nat) (ops : List (Nat × Request)) : List Request :=
  ops.filterMap fun op => if op.1 = id then some op.2 else none

namespace Request

variable {id : Nat} {op : Nat × Request} {ops more : List (Nat × Request)}

theorem addressed_cons_self (r : Request) :
    addressed id ((id, r) :: ops) = r :: addressed id ops := by
  simp [addressed]

theorem addressed_cons_of_ne (h : op.1 ≠ id) : addressed id (op :: ops) = addressed id ops := by
  simp [addressed, h]

theorem addressed_append : addressed id (ops ++ more) = addressed id ops ++ addressed id more :=
  List.filterMap_append

theorem addressed_eq_nil (h : ∀ op ∈ ops, op.1 ≠ id) : addressed id ops = [] := by
  refine List.filterMap_eq_nil_iff.mpr fun op hop => ?_
  rw [if_neg (h op hop)]

theorem mem_addressed : op.2 ∈ addressed op.1 ops ↔ op ∈ ops := by
  simp [addressed, List.mem_filterMap, and_comm]

end Request

/-- Requests to one routine are granted. The table may grow before each of them and at the end. -/
inductive Assembly.Goes : Assembly → List Request → Assembly → Prop
  | done {a : Assembler} {symbols more : SymbolTable} (hgrown : symbols.entries <+: more.entries) :
      Goes ⟨a, symbols⟩ [] ⟨a, more⟩
  | step {a : Assembler} {symbols more : SymbolTable} {r : Request} {requests : List Request}
      {t u : Assembly} (hgrown : symbols.entries <+: more.entries) (hmore : more.Sound)
      (hr : Emit.request r ⟨a, more⟩ = .ok () t) (hrest : Goes t requests u) :
      Goes ⟨a, symbols⟩ (r :: requests) u

/-- The table may have grown before. -/
theorem Assembly.Goes.grown {a : Assembler} {symbols more : SymbolTable} {requests : List Request}
    {u : Assembly} (h : Goes ⟨a, more⟩ requests u) (hgrown : symbols.entries <+: more.entries) :
    Goes ⟨a, symbols⟩ requests u := by
  cases h with
  | done hgrown' => exact .done (hgrown.trans hgrown')
  | step hgrown' hmore hr hrest => exact .step (hgrown.trans hgrown') hmore hr hrest

namespace UnitBuilder

variable {u : UnitBuilder} {id k : Nat} {r r' : Routine} {s : Assembly}

theorem getElem?_putBack_of_ne (h : id ≠ k) :
    (u.putBack id s).routines[k]? = u.routines[k]? := by
  rw [putBack, Array.getElem?_modify, if_neg h]

/-- A routine after one of them was put back. -/
theorem putBack_cases (hr : u.routines[id]? = some r)
    (h : (u.putBack id s).routines[k]? = some r') :
    (id = k ∧ r' = { r with assembler := s.assembler }) ∨ (id ≠ k ∧ u.routines[k]? = some r') := by
  by_cases hk : id = k
  · subst hk
    exact .inl ⟨rfl, Option.some.inj (h.symm.trans (Build.getElem?_putBack hr))⟩
  · exact .inr ⟨hk, (getElem?_putBack_of_ne hk).symm.trans h⟩

theorem Linked.putBack {req : Request} (hu : u.Linked) (hr : u.routines[id]? = some r)
    (ht : Emit.request req ⟨r.assembler, u.symbols⟩ = .ok () s) : (u.putBack id s).Linked := by
  have hs : s = leaves (Emit.request req) ⟨r.assembler, u.symbols⟩ := by rw [leaves, ht]
  exact Step.linked (.code hr (.single ⟨req, hs⟩)) hu

end UnitBuilder

namespace Build

open UnitBuilder

variable {u v w : UnitBuilder} {ops ops' : List (Nat × Request)} {id k : Nat} {req : Request}
  {r : Routine} {t : Assembly}

/-- Makes requests of the assemblers of routines, in order. -/
def play (ops : List (Nat × Request)) : Build Unit :=
  ops.forM fun op => perform (.onRoutine op.1 op.2)

/-- A granted request is followed by the rest of the run. -/
theorem play_cons (hr : u.routines[id]? = some r)
    (ht : Emit.request req ⟨r.assembler, u.symbols⟩ = .ok () t) :
    play ((id, req) :: ops) u = play ops (u.putBack id t) := by
  have hstep : onRoutine id (Emit.request req) u = .ok () (u.putBack id t) := by
    simp only [onRoutine, bind, EStateM.bind, getRoutine_eq hr, ht]
  show (onRoutine id (Emit.request req) >>= fun _ => play ops) u = _
  simp only [bind, EStateM.bind, hstep]

/-- A run starts with a granted request. -/
theorem exists_of_play_cons (h : play ((id, req) :: ops) u = .ok () v) :
    ∃ r t, u.routines[id]? = some r ∧ Emit.request req ⟨r.assembler, u.symbols⟩ = .ok () t ∧
      play ops (u.putBack id t) = .ok () v := by
  obtain ⟨_, w, hstep, hrest⟩ := exists_of_bind_ok h
  have hends : Ends (onRoutine id (Emit.request req)) u
      (fun _ w => ∃ r t, u.routines[id]? = some r ∧
        Emit.request req ⟨r.assembler, u.symbols⟩ = .ok () t ∧ w = u.putBack id t)
      fun _ _ => True := by
    refine ends_onRoutine (fun _ => trivial) fun r hr => ?_
    refine (Ends.self _ _).mono (fun _ t ht => ?_) fun _ _ _ => trivial
    exact ⟨r, t, hr, ht, rfl⟩
  obtain ⟨r, t, hr, ht, rfl⟩ := hends.ok hstep
  exact ⟨r, t, hr, ht, hrest⟩

/-- **What a run means for one of the routines**: its own requests are granted, and the others let
the table grow in between. -/
theorem goes_of_play (hu : u.Linked) (h : play ops u = .ok () v) (hr : u.routines[k]? = some r) :
    ∃ r', v.routines[k]? = some r' ∧
      Assembly.Goes ⟨r.assembler, u.symbols⟩ (Request.addressed k ops)
        ⟨r'.assembler, v.symbols⟩ := by
  induction ops generalizing u r with
  | nil =>
    cases h
    exact ⟨r, hr, .done List.prefix_rfl⟩
  | cons op ops ih =>
    obtain ⟨id, req⟩ := op
    obtain ⟨r₀, t, hr₀, ht, hrest⟩ := exists_of_play_cons h
    have hlinked := hu.putBack hr₀ ht
    by_cases hid : id = k
    · -- the request is one of its own
      subst hid
      obtain rfl : r₀ = r := Option.some.inj (hr₀.symm.trans hr)
      obtain ⟨r', hr', hgoes⟩ := ih hlinked hrest (getElem?_putBack hr)
      rw [Request.addressed_cons_self]
      exact ⟨r', hr', .step List.prefix_rfl hu.symbols ht hgoes⟩
    · -- the request is to another routine, and may have added a symbol
      obtain ⟨r', hr', hgoes⟩ := ih hlinked hrest ((getElem?_putBack_of_ne hid).trans hr)
      rw [Request.addressed_cons_of_ne hid]
      have hclean := (hu.routines id r₀ hr₀).wellFormed.noVoid
      obtain ⟨_, hyields, -⟩ := (Emit.ends_request_code req hclean).ok ht
      exact ⟨r', hr', hgoes.grown (hyields.prefix_entries hu.symbols)⟩

/-- What a run adds to the table: the members that its requests name. -/
theorem symbols_of_play (hu : u.Linked) (hfaithful : u.symbols.Faithful)
    (h : play ops u = .ok () v) :
    v.symbols.Faithful ∧ ∀ text, text ∈ v.symbols.entries ↔
      text ∈ u.symbols.entries ∨ ∃ op ∈ ops, op.2.member? = some text := by
  induction ops generalizing u with
  | nil =>
    cases h
    exact ⟨hfaithful, by simp⟩
  | cons op ops ih =>
    obtain ⟨id, req⟩ := op
    obtain ⟨r, t, hr, ht, hrest⟩ := exists_of_play_cons h
    obtain ⟨_, hyields, -⟩ :=
      (Emit.ends_request_code req (hu.routines id r hr).wellFormed.noVoid).ok ht
    obtain ⟨hv, hmem⟩ := ih (hu.putBack hr ht) (hyields.faithful hfaithful) hrest
    refine ⟨hv, fun text => ?_⟩
    have hfirst := hyields.mem_entries hfaithful text
    rw [hmem, List.exists_mem_cons_iff, ← or_assoc]
    exact or_congr_left hfirst

theorem linked_of_play (hu : u.Linked) (h : play ops u = .ok () v) : v.Linked := by
  induction ops generalizing u with
  | nil =>
    cases h
    exact hu
  | cons op ops ih =>
    obtain ⟨id, req⟩ := op
    obtain ⟨r, t, hr, ht, hrest⟩ := exists_of_play_cons h
    exact ih (hu.putBack hr ht) hrest

/-- The routines of a run are there from the start. -/
theorem exists_routine_of_play {op : Nat × Request} (h : play ops u = .ok () v) (hop : op ∈ ops) :
    ∃ r, u.routines[op.1]? = some r := by
  induction ops generalizing u with
  | nil => cases hop
  | cons first ops ih =>
    obtain ⟨id, req⟩ := first
    obtain ⟨r, t, hr, ht, hrest⟩ := exists_of_play_cons h
    rcases List.mem_cons.mp hop with rfl | hop
    · exact ⟨r, hr⟩
    · obtain ⟨r', hr'⟩ := ih hrest hop
      rcases putBack_cases hr hr' with ⟨hid, -⟩ | ⟨-, hold⟩
      · exact ⟨r, hid ▸ hr⟩
      · exact ⟨r', hold⟩

/-- A run adds no routine. -/
theorem size_routines_of_play (h : play ops u = .ok () v) :
    v.routines.size = u.routines.size := by
  induction ops generalizing u with
  | nil =>
    cases h
    rfl
  | cons op ops ih =>
    obtain ⟨_, t, -, -, hrest⟩ := exists_of_play_cons h
    rw [ih hrest, putBack, Array.size_modify]

/-! ### Other orders -/

/-- By the requests `ops` the unit `w` comes to what `v` is, but for the numbers of symbols: each of
its routines is like one that goes to the routine in `v`. -/
structure Awaits (ops : List (Nat × Request)) (w v : UnitBuilder) : Prop where
  linked : w.Linked
  faithful : w.symbols.Faithful
  symbols_subset : w.symbols.entries ⊆ v.symbols.entries
  members : ∀ op ∈ ops, ∀ text, op.2.member? = some text → text ∈ v.symbols.entries
  routines : ∀ op ∈ ops, ∃ r, w.routines[op.1]? = some r
  goes : ∀ (k : Nat) r, w.routines[k]? = some r → ∃ (s : Assembly) (r' : Routine), s.Linked ∧
    s.Like ⟨r.assembler, w.symbols⟩ ∧ v.routines[k]? = some r' ∧
    s.Goes (Request.addressed k ops) ⟨r'.assembler, v.symbols⟩

/-- A run can be made again in every order that is the same for each routine. -/
theorem awaits_of_play (hu : u.Linked) (hfaithful : u.symbols.Faithful)
    (h : play ops u = .ok () v)
    (hsame : ∀ k, Request.addressed k ops' = Request.addressed k ops) : Awaits ops' u v := by
  have hmem : ∀ op ∈ ops', op ∈ ops := by
    intro op hop
    rw [← Request.mem_addressed, ← hsame, Request.mem_addressed]
    exact hop
  obtain ⟨-, hsymbols⟩ := symbols_of_play hu hfaithful h
  refine ⟨hu, hfaithful, fun text htext => (hsymbols text).mpr (.inl htext), ?_, ?_, ?_⟩
  · exact fun op hop text htext => (hsymbols text).mpr (.inr ⟨op, hmem op hop, htext⟩)
  · exact fun op hop => exists_routine_of_play h (hmem op hop)
  · intro k r hr
    obtain ⟨r', hr', hgoes⟩ := goes_of_play hu h hr
    exact ⟨_, r', hu.routines k r hr, .refl _, hr', hsame k ▸ hgoes⟩

/-- The next request is granted. Its routine goes on like the other one, and the others do not see
more of it than a table that has grown. -/
theorem Awaits.step (h : Awaits ((id, req) :: ops) w v) (hv : v.symbols.Faithful) :
    ∃ r t, w.routines[id]? = some r ∧ Emit.request req ⟨r.assembler, w.symbols⟩ = .ok () t ∧
      Awaits ops (w.putBack id t) v := by
  obtain ⟨r, hr⟩ := h.routines _ List.mem_cons_self
  have hlinked := h.linked.routines id r hr
  obtain ⟨s, r', hs, hlike, hr', hgoes⟩ := h.goes id r hr
  rw [Request.addressed_cons_self] at hgoes
  cases hgoes with
  | @step a symbols more _ _ t _ hgrown hmore hgranted hrest =>
    have hmember := h.members _ List.mem_cons_self
    have hs' := hs.setSymbols hmore hgrown
    -- there is room for the member, as there was in the end
    obtain ⟨t', ht', hlike'⟩ := Emit.exists_request_like hs' hlinked
      (hlike.setSymbols hs hlinked hgrown List.prefix_rfl) hgranted fun text htext =>
        h.faithful.succeeds_intern hv h.symbols_subset (hmember text htext)
    obtain ⟨_, hyields, -⟩ := (Emit.ends_request_code req hlinked.wellFormed.noVoid).ok ht'
    refine ⟨r, t', hr, ht', h.linked.putBack hr ht', hyields.faithful h.faithful, ?_, ?_, ?_, ?_⟩
    · -- what was added is the member, which is there in the end
      intro text htext
      rcases (hyields.mem_entries h.faithful text).mp htext with hold | hnew
      · exact h.symbols_subset hold
      · exact hmember text hnew
    · exact fun op hop => h.members op (List.mem_cons_of_mem _ hop)
    · intro op hop
      obtain ⟨r₁, hr₁⟩ := h.routines op (List.mem_cons_of_mem _ hop)
      by_cases hop' : id = op.1
      · rw [← hop']
        exact ⟨_, getElem?_putBack hr⟩
      · exact ⟨r₁, (getElem?_putBack_of_ne hop').trans hr₁⟩
    · intro k r₁ hr₁
      rcases putBack_cases hr hr₁ with ⟨rfl, rfl⟩ | ⟨hk, hold⟩
      · exact ⟨t, r', ((Emit.safe_request req _ hs').ok hgranted).linked, hlike', hr', hrest⟩
      · -- another routine is what it was, beside a larger table
        obtain ⟨s₁, r₁', hs₁, hlike₁, hr₁', hgoes₁⟩ := h.goes k r₁ hold
        rw [Request.addressed_cons_of_ne hk] at hgoes₁
        exact ⟨s₁, r₁', hs₁, hlike₁.setSymbols hs₁ (h.linked.routines k r₁ hold) List.prefix_rfl
          (hyields.prefix_entries hlinked.symbols), hr₁', hgoes₁⟩

/-- When nothing is left to do, the routines are like the other ones. -/
theorem Awaits.like (h : Awaits [] w v) (hr : w.routines[k]? = some r) :
    ∃ r', v.routines[k]? = some r' ∧
      Assembly.Like ⟨r'.assembler, v.symbols⟩ ⟨r.assembler, w.symbols⟩ := by
  obtain ⟨s, r', hs, hlike, hr', hgoes⟩ := h.goes k r hr
  refine ⟨r', hr', ?_⟩
  have hends : ∀ t : Assembly, s.Goes [] t → t.Like ⟨r.assembler, w.symbols⟩ := by
    rintro t ⟨hgrown⟩
    exact hlike.setSymbols hs (h.linked.routines k r hr) hgrown List.prefix_rfl
  exact hends _ hgoes

/-- **Requests that are awaited are granted**, one after the other. -/
theorem Awaits.exists_play (h : Awaits ops w v) (hv : v.symbols.Faithful) :
    ∃ w', play ops w = .ok () w' ∧ Awaits [] w' v := by
  induction ops generalizing w with
  | nil => exact ⟨w, rfl, h⟩
  | cons op ops ih =>
    obtain ⟨id, req⟩ := op
    obtain ⟨r, t, hr, ht, hnext⟩ := h.step hv
    rw [play_cons hr ht]
    exact ih hnext

/-- **Requests are granted in every order that is the same for each routine.** The routines differ
in the numbers of symbols only, and the symbols are the same. -/
theorem exists_play (hu : u.Linked) (hfaithful : u.symbols.Faithful) (h : play ops u = .ok () v)
    (hsame : ∀ k, Request.addressed k ops' = Request.addressed k ops) :
    ∃ v', play ops' u = .ok () v' ∧
      (∀ (k : Nat) r, v.routines[k]? = some r → ∃ r', v'.routines[k]? = some r' ∧
        Assembler.Renumbers v.symbols.entries v'.symbols.entries r.assembler r'.assembler) ∧
      ∀ text, text ∈ v'.symbols.entries ↔ text ∈ v.symbols.entries := by
  obtain ⟨hv, hsymbols⟩ := symbols_of_play hu hfaithful h
  obtain ⟨v', hplay, hdone⟩ := (awaits_of_play hu hfaithful h hsame).exists_play hv
  obtain ⟨-, hsymbols'⟩ := symbols_of_play hu hfaithful hplay
  refine ⟨v', hplay, fun k r hr => ?_, fun text => ?_⟩
  · have hk : k < v'.routines.size := by
      rw [size_routines_of_play hplay, ← size_routines_of_play h]
      exact (Array.getElem?_eq_some_iff.mp hr).1
    have hr' := Array.getElem?_eq_getElem hk
    obtain ⟨r₁, hr₁, hlike⟩ := hdone.like hr'
    obtain rfl : r₁ = r := Option.some.inj (hr₁.symm.trans hr)
    have hform := ((linked_of_play hu h).routines k r₁ hr₁).wellFormed
    have hform' := ((linked_of_play hu hplay).routines k _ hr').wellFormed
    exact ⟨_, hr', hlike.renumbers hform hform'⟩
  · have hmem : ∀ op, op ∈ ops' ↔ op ∈ ops := by
      intro op
      rw [← Request.mem_addressed, hsame, Request.mem_addressed]
    simp only [hsymbols, hsymbols', hmem]

end Build

/-! ### Interleavings -/

/-- The third list is made of the items of the two others, each of them in its order. -/
inductive Interleave {α : Type} : List α → List α → List α → Prop
  | nil : Interleave [] [] []
  | left {xs ys zs : List α} (x : α) (h : Interleave xs ys zs) : Interleave (x :: xs) ys (x :: zs)
  | right {xs ys zs : List α} (y : α) (h : Interleave xs ys zs) : Interleave xs (y :: ys) (y :: zs)

/-- To each of two routines an interleaving is the same as one routine after the other. -/
theorem Interleave.addressed {xs ys zs : List (Nat × Request)} {i j : Nat}
    (h : Interleave xs ys zs) (hij : i ≠ j) (hxs : ∀ op ∈ xs, op.1 = i)
    (hys : ∀ op ∈ ys, op.1 = j) (k : Nat) :
    Request.addressed k zs = Request.addressed k (xs ++ ys) := by
  induction h with
  | nil => rfl
  | @left xs ys zs x h ih =>
    have hrest := ih (fun op hop => hxs op (List.mem_cons_of_mem x hop)) hys
    show Request.addressed k ([x] ++ zs) = Request.addressed k ([x] ++ (xs ++ ys))
    rw [Request.addressed_append, Request.addressed_append, hrest]
  | @right xs ys zs y h ih =>
    have hrest := ih hxs fun op hop => hys op (List.mem_cons_of_mem y hop)
    rw [Request.addressed_append] at hrest ⊢
    by_cases hk : y.1 = k
    · -- nothing of the first list goes to the second routine
      have hnone : Request.addressed k xs = [] := by
        refine Request.addressed_eq_nil fun op hop hopk => hij ?_
        rw [← hxs op hop, hopk, ← hk, hys y List.mem_cons_self]
      rw [hnone] at hrest ⊢
      obtain ⟨_, req⟩ := y
      subst hk
      rw [Request.addressed_cons_self, Request.addressed_cons_self, hrest]
      rfl
    · rw [Request.addressed_cons_of_ne hk, Request.addressed_cons_of_ne hk, hrest]

namespace Build

/-- **Routines under construction do not disturb each other.** When requests to two routines are
granted one routine after the other, then they are granted in every interleaving. All routines end
with the same stacks, locals, labels and code, but for the numbers of symbols, and the symbols of
the unit are the same. -/
theorem play_interleave (context : Context) (name source : Text) (strict : Bool)
    (requests : List UnitRequest) {i j : Nat} (hij : i ≠ j) {xs ys : List Request}
    {v : UnitBuilder}
    (hplay : play (xs.map (Prod.mk i) ++ ys.map (Prod.mk j))
      ((UnitBuilder.new context name source strict).after requests) = .ok () v)
    {zs : List (Nat × Request)}
    (hzs : Interleave (xs.map (Prod.mk i)) (ys.map (Prod.mk j)) zs) :
    ∃ v', play zs ((UnitBuilder.new context name source strict).after requests) = .ok () v' ∧
      (∀ (k : Nat) r, v.routines[k]? = some r → ∃ r', v'.routines[k]? = some r' ∧
        Assembler.Renumbers v.symbols.entries v'.symbols.entries r.assembler r'.assembler) ∧
      ∀ text, text ∈ v'.symbols.entries ↔ text ∈ v.symbols.entries := by
  have hcourse := (UnitBuilder.new context name source strict).course_after requests
  have hnew := UnitBuilder.linked_new context name source strict
  have hlinked := (hcourse.linked_grows hnew).1
  have hfaithful := hcourse.faithful hnew (.empty _)
  refine exists_play hlinked hfaithful hplay fun k => ?_
  exact hzs.addressed hij (by simp) (by simp) k

/-- A unit with two routines under construction. -/
def twoRoutines : List UnitRequest :=
  [.begin, .routine (Flags.ofList [.isStatic]) "first" { result := .int },
    .routine (Flags.ofList [.isStatic]) "second" { result := .int },
    .beginRoutine 0, .beginRoutine 1]

/-- Two routines that read a static each: the symbols change places when the second routine is the
first to ask. -/
theorem play_interleave_twoRoutines : ∃ v v' : UnitBuilder,
    play [(0, .emission (.getStatic "o" "a" .int)), (0, .newLabel), (0, .bind 0),
        (1, .emission (.getStatic "o" "b" .int)), (1, .emission .returnValue)]
      ((UnitBuilder.new {} "unit" "source" true).after twoRoutines) = .ok () v ∧
    play [(1, .emission (.getStatic "o" "b" .int)), (0, .emission (.getStatic "o" "a" .int)),
        (0, .newLabel), (1, .emission .returnValue), (0, .bind 0)]
      ((UnitBuilder.new {} "unit" "source" true).after twoRoutines) = .ok () v' ∧
    v.symbols.entries = [("o.a:I" : Text), ("o.b:I" : Text)] ∧
    v'.symbols.entries = [("o.b:I" : Text), ("o.a:I" : Text)] ∧
    ∀ (k : Nat) r, v.routines[k]? = some r → ∃ r', v'.routines[k]? = some r' ∧
      Assembler.Renumbers v.symbols.entries v'.symbols.entries r.assembler r'.assembler := by
  let start := (UnitBuilder.new {} "unit" "source" true).after twoRoutines
  let xs : List Request := [.emission (.getStatic "o" "a" .int), .newLabel, .bind 0]
  let ys : List Request := [.emission (.getStatic "o" "b" .int), .emission .returnValue]
  let zs : List (Nat × Request) := [(1, .emission (.getStatic "o" "b" .int)),
    (0, .emission (.getStatic "o" "a" .int)), (0, .newLabel), (1, .emission .returnValue),
    (0, .bind 0)]
  have hrun : (play (xs.map (Prod.mk 0) ++ ys.map (Prod.mk 1))).run' start = some () := by
    decide +kernel
  obtain ⟨v, hv⟩ := exists_of_run' hrun
  have hzs : Interleave (xs.map (Prod.mk 0)) (ys.map (Prod.mk 1)) zs :=
    .right _ (.left _ (.left _ (.right _ (.left _ .nil))))
  obtain ⟨v', hv', hroutines, -⟩ :=
    play_interleave {} "unit" "source" true twoRoutines (by decide) hv hzs
  have hleaves : leaves (play (xs.map (Prod.mk 0) ++ ys.map (Prod.mk 1))) start = v := by
    rw [leaves, hv]
  have hleaves' : leaves (play zs) start = v' := by rw [leaves, hv']
  refine ⟨v, v', hv, hv', ?_, ?_, hroutines⟩
  · rw [← hleaves]
    decide +kernel
  · rw [← hleaves']
    decide +kernel

end Build

end Bytecode
