import Mathlib
import Bytecode.Proofs.Assembly.References
import Bytecode.Proofs.Image.Duplicates
import Bytecode.Proofs.Unit.Acceptance
import Bytecode.Proofs.Unit.Opening

/-!
# Identities of routines

The identity of a routine is its name with its descriptor behind it. A name may be any text, and may
hold parentheses and whole descriptors. Still an identity is cut in one way only: the descriptor
starts at the last opening parenthesis, since there is none within it.

The routine of a function returns an object, and no accessor does. So the identities of the two are
never the same, whatever functions are called, and a unit is not kept from ending by a duplicate
routine when all its routines were opened for functions. Only verification can be led to see one, by
a text that is too long and spells routines.

## Main definitions

* `Pool.IsAccessor`: the identities of accessors
* `UnitBuilder.OnlyOpens`: a run in which no other routines are added than those of functions
* `UnitBuilder.AllOpened`: all routines were opened for functions
* `Error.ReportsDuplicate`: an error that reports a duplicate routine

## Main results

* `Signature.append_descriptor_inj`: an identity is cut in one way only
* `Signature.not_isAccessor_ofAttributes`: no function has the identity of an accessor
* `UnitBuilder.AllOpened.perform`: what was opened for functions stays so
* `Build.ends_finish_duplicate`: the end of a unit reports no duplicate routine, if its texts fit
* `Build.identities_unambiguous`: identities are unambiguous
* `Build.finish_spellingUnit`: verification is led to see a duplicate
-/

namespace Bytecode

/-! ### Names and descriptors -/

namespace Signature

variable {name name' : Text} {s s' : Signature}

/-- Behind its opening parenthesis a descriptor has no other. -/
theorem exists_descriptor_eq_cons (s : Signature) :
    ∃ rest, s.descriptor = 40 :: rest ∧ 40 ∉ rest := by
  refine ⟨_, s.descriptor_eq, fun hmem => ?_⟩
  rcases List.mem_append.mp hmem with hparam | hmem
  · obtain ⟨t, -, ht⟩ := List.mem_flatMap.mp hparam
    exact t.parenthesis_notMem_descriptor ht
  · rcases List.mem_cons.mp hmem with hclose | hresult
    · exact absurd hclose (by decide)
    · exact s.result.parenthesis_notMem_descriptor hresult

/-- **An identity is cut in one way only** into a name and a descriptor. -/
theorem append_descriptor_inj : name ++ s.descriptor = name' ++ s'.descriptor ↔
    name = name' ∧ s.params = s'.params ∧ s.result = s'.result := by
  rw [← descriptor_eq_descriptor_iff]
  constructor
  · intro h
    obtain ⟨rest, hrest, hnot⟩ := s.exists_descriptor_eq_cons
    obtain ⟨rest', hrest', hnot'⟩ := s'.exists_descriptor_eq_cons
    rw [hrest, hrest'] at h ⊢
    obtain ⟨hname, htail⟩ := append_cons_inj_of_notMem hnot hnot' h
    exact ⟨hname, congrArg _ htail⟩
  · rintro ⟨hname, hdescriptor⟩
    rw [hname, hdescriptor]

end Signature

/-- The identities of accessors, and of the routine that replaces a map. -/
inductive Pool.IsAccessor : Text → Prop
  | getter {t : ValueType} {name : Text} {signature : Signature}
      (hname : accessorName t = .ok name) (hsignature : accessorSignature t = .ok signature) :
      IsAccessor (name ++ signature.descriptor)
  | mapSetter : IsAccessor
      ("$setMap" ++ Signature.descriptor { result := .void, params := [.int, .map] })

theorem Pool.isAccessor_of_mem {t : ValueType} {member : Text × Text}
    (h : member ∈ accessorMembers t) : IsAccessor (UnitBuilder.identityOf member) := by
  rcases List.mem_append.mp h with hgetter | hsetter
  · unfold getter at hgetter
    split at hgetter
    · next hname hsignature =>
      obtain rfl := List.mem_singleton.mp hgetter
      exact .getter hname hsignature
    · cases hgetter
  · split at hsetter
    · obtain rfl := List.mem_singleton.mp hsetter
      exact .mapSetter
    · cases hsetter

/-- **No function has the identity of an accessor**, whatever its name. -/
theorem Signature.not_isAccessor_ofAttributes (name : Text) (a : Attributes) (paramCount : Nat) :
    ¬ Pool.IsAccessor (name ++ (ofAttributes a paramCount).descriptor) := by
  intro h
  generalize hidentity : name ++ (ofAttributes a paramCount).descriptor = identity at h
  cases h with
  | @getter t _ signature _ hsignature =>
    -- an accessor returns what is in the pool, and a mere object is not
    have hresult : ValueType.object = signature.result := (append_descriptor_inj.mp hidentity).2.2
    obtain ⟨_, hpoolable, hsignature⟩ := exists_of_except_bind hsignature
    cases hsignature
    obtain rfl : ValueType.object = t := hresult
    cases hpoolable
  | mapSetter => cases (append_descriptor_inj.mp hidentity).2.2

/-! ### Runs -/

/-- The routine was opened for a function. -/
structure Routine.IsOpened (r : Routine) : Prop where
  signature_eq : ∃ a paramCount, r.signature = Signature.ofAttributes a paramCount
  begun : r.phase ≠ .notStarted

/-- The request is for a routine with a signature of its own. -/
def UnitRequest.AddsRoutine : UnitRequest → Prop
  | routine _ _ _ | staticInitializer | instanceInitializer _ => True
  | _ => False

namespace UnitBuilder

variable {u v : UnitBuilder} {id : Nat} {done : List Nat}

/-- No other routines are added in the course of the requests than those of functions. Requests for
other routines may be there, but are not granted. -/
def OnlyOpens : UnitBuilder → List UnitRequest → Prop
  | _, [] => True
  | u, r :: rest => (r.AddsRoutine → ∃ e v, Build.perform r u = .error e v) ∧
      (leaves (Build.perform r) u).OnlyOpens rest

/-- All routines of the unit were opened for functions. -/
def AllOpened (u : UnitBuilder) : Prop :=
  ∀ (id : Nat) (r : Routine), u.routines[id]? = some r → r.IsOpened

namespace AllOpened

/-- A routine may change as long as it keeps its signature and does not go back to its start. -/
theorem modify (h : u.AllOpened) {f : Routine → Routine}
    (hf : ∀ r, r.IsOpened → (f r).IsOpened) (hv : v.routines = u.routines.modify id f) :
    v.AllOpened := by
  intro k r hr
  rw [hv, Array.getElem?_modify] at hr
  split at hr
  · obtain ⟨r', hr', rfl⟩ := Option.map_eq_some_iff.mp hr
    exact hf r' (h k r' hr')
  · exact h k r hr

theorem work (h : u.AllOpened) (hwork : Works id u v) : v.AllOpened := by
  obtain ⟨_, _, f, hf, rfl⟩ := hwork
  refine h.modify (fun r hr => ?_) rfl
  obtain ⟨assembler, layout, heq⟩ := hf r
  rw [heq]
  exact ⟨hr.signature_eq, hr.begun⟩

theorem begins (h : u.AllOpened) (hbegins : Begins id u v) : v.AllOpened := by
  obtain ⟨-, -, hwork⟩ := hbegins
  have hbegun : (u.withBegun id).AllOpened :=
    h.modify (f := fun r => { r with phase := .started })
      (fun r hr => ⟨hr.signature_eq, by rintro ⟨⟩⟩) rfl
  exact hbegun.work hwork

theorem ended (h : u.AllOpened) (record : RoutineRecord) : (u.withEnded id record).AllOpened :=
  h.modify (f := fun r => { r with phase := .ended })
    (fun r hr => ⟨hr.signature_eq, by rintro ⟨⟩⟩) rfl

theorem opened (h : u.AllOpened) {name : Text} {a : Attributes} {paramCount : Nat} {r : Routine}
    (hopened : u.Opened name a paramCount id r v) : v.AllOpened := by
  intro k r' hr'
  rw [hopened.eq] at hr'
  rw [Array.getElem?_push] at hr'
  split at hr'
  · obtain rfl := Option.some.inj hr'
    exact ⟨⟨a, paramCount, hopened.signature_eq⟩, by rw [hopened.phase_eq]; rintro ⟨⟩⟩
  · exact h k r' hr'

end AllOpened

end UnitBuilder

namespace Build

open UnitBuilder

variable {α : Type} {u : UnitBuilder} {done : List Nat}

theorem keeps_openRoutine_opened (name : Text) (a : Attributes) (paramCount scopeSize : Nat) :
    Keeps AllOpened AllOpened (openRoutine name a paramCount scopeSize) := by
  intro u hu
  refine (ends_openRoutine_exact u name a paramCount scopeSize).mono ?_ ?_
  · rintro id v ⟨-, r, hopened⟩
    exact hu.opened hopened
  · rintro - _ ⟨-, rfl⟩
    exact hu

theorem keeps_onRoutine_opened (id : Nat) (step : Emit α) :
    Keeps AllOpened AllOpened (onRoutine id step) := fun _ hu =>
  (ends_onRoutine_works step).mono (fun _ _ hwork => hu.work hwork) fun _ _ hwork => hu.work hwork

/-- A request keeps all routines those of functions, if it is not granted when it is for another
routine. Only the end of the unit is different, since that adds accessors. -/
theorem ends_perform_opened {r : UnitRequest} (hlife : u.Lifecycle done) (hu : u.AllOpened)
    (hr : r ≠ .finish) (hadds : r.AddsRoutine → ∃ e v, perform r u = .error e v) :
    (leaves (perform r) u).AllOpened := by
  -- a routine that is not added leaves the unit as it was
  have hrefused : ∀ {flags name signature},
      (∃ e v, perform (.routine flags name signature) u = .error e v) →
      (leaves (perform (.routine flags name signature)) u).AllOpened := by
    rintro flags name signature ⟨e, v, hrun⟩
    have hends : Ends (perform (.routine flags name signature)) u (fun _ _ => True)
        fun _ w => w = u := Ends.map (ends_routine.mono (fun _ _ _ => trivial) fun _ _ hw => hw)
    rw [leaves, hrun]
    obtain rfl := hends.error hrun
    exact hu
  have hkept : ∀ {m : Build Unit}, Keeps AllOpened AllOpened m → (leaves m u).AllOpened :=
    fun hm => (hm u hu).leaves
  cases r with
  | begin =>
    refine hkept fun u hu => ?_
    refine Ends.bind (ends_requirePhase (fun _ _ => hu) fun _ => Ends.bind (Ends.get ?_))
    refine Ends.bind (ends_ofExcept (fun _ _ => hu) fun _ _ => ?_)
    exact Ends.bind (ends_ofExcept (fun _ _ => hu) fun _ _ => Ends.modify hu)
  | finish => exact absurd rfl hr
  | field f =>
    refine hkept fun u hu => ?_
    refine Ends.bind (ends_requirePhase (fun _ _ => hu) fun _ => Ends.bind (Ends.get ?_))
    refine Ends.bind (ends_ofExcept (fun _ _ => hu) fun _ _ => ?_)
    split
    · exact Ends.bind hu
    · exact Ends.modify hu
  | routine flags name signature => exact hrefused (hadds trivial)
  | staticInitializer => exact hrefused (hadds trivial)
  | instanceInitializer params => exact hrefused (hadds trivial)
  | openRoutine name a paramCount scopeSize =>
    exact hkept ((keeps_openRoutine_opened name a paramCount scopeSize).map _)
  | openFunction f =>
    refine hkept (Keeps.map _ ((keeps_ofExcept (fun _ hv => hv) _).bind fun _ => ?_))
    exact keeps_openRoutine_opened _ _ _ _
  | beginRoutine id =>
    refine hkept fun u hu => ends_beginRoutine.mono (fun _ _ hbegins => hu.begins hbegins) ?_
    rintro - _ (rfl | hbegins)
    · exact hu
    · exact hu.begins hbegins
  | endRoutine id =>
    have hends : Ends (endRoutine id) u (fun _ => AllOpened) fun _ => AllOpened := by
      refine (ends_endRoutine (hlife.guards id)).mono ?_ ?_
      · rintro - _ ⟨w, r, record, hwork, -, -, -, -, rfl⟩
        exact (hu.work hwork).ended record
      · rintro - _ rfl
        exact hu
    exact hends.leaves
  | onRoutine id r => exact hkept (keeps_onRoutine_opened id _)
  | loadConstants id => exact hkept (keeps_get.bind fun _ => keeps_onRoutine_opened id _)
  | loadConstant id c =>
    exact hkept (keeps_loadConstant_of_emission (fun _ hu => hu) (fun _ _ hu => hu)
      (fun e => keeps_onRoutine_opened id _) c)
  | intern c =>
    refine hkept (Keeps.map _ fun u hu => ends_intern.mono ?_ ?_)
    · rintro - _ ⟨pool, -, rfl⟩
      exact hu
    · rintro - _ rfl
      exact hu
  | request t =>
    refine hkept fun u hu => ends_request.mono ?_ ?_
    · rintro - _ ⟨pool, -, rfl⟩
      exact hu
    · rintro - _ rfl
      exact hu
  | symbol text =>
    refine hkept (Keeps.map _ fun u hu => ends_symbol.mono ?_ ?_)
    · rintro - _ ⟨symbols, -, rfl⟩
      exact hu
    · rintro - _ rfl
      exact hu

end Build

namespace UnitBuilder

variable {u v : UnitBuilder} {done : List Nat} {e : Error} {requests : List UnitRequest}

/-- A unit that has ended stays so, and one that has not keeps its routines those of functions. -/
theorem AllOpened.perform {r : UnitRequest} (hlife : u.Lifecycle done)
    (hu : u.phase = .ended ∨ u.AllOpened)
    (hadds : r.AddsRoutine → ∃ e v, Build.perform r u = .error e v) :
    (leaves (Build.perform r) u).phase = .ended ∨ (leaves (Build.perform r) u).AllOpened := by
  by_cases hr : r = .finish
  · subst hr
    have hends : Ends Build.finish u (fun _ v => v.phase = .ended ∨ v.AllOpened)
        fun _ v => v.phase = .ended ∨ v.AllOpened := by
      refine Build.ends_finish_restored.mono ?_ ?_
      · rintro - _ ⟨-, -, w, context, bytes, -, rfl⟩
        exact .inl rfl
      · rintro - _ ⟨context, identities, -, rfl⟩
        exact hu
    exact hends.leaves
  · rcases hu with hended | hopened
    · refine .inl ?_
      -- the unit goes on to give out its bytes
      have hbytes := hlife.published_perform hr
      rw [published, published, if_pos hended] at hbytes
      by_contra hphase
      rw [if_neg hphase] at hbytes
      cases hbytes
    · exact .inr (Build.ends_perform_opened hlife hopened hr hadds)

theorem AllOpened.after (hlife : u.Lifecycle done) (hu : u.phase = .ended ∨ u.AllOpened)
    (honly : u.OnlyOpens requests) :
    (u.after requests).phase = .ended ∨ (u.after requests).AllOpened := by
  induction requests generalizing u done with
  | nil => exact hu
  | cons r requests ih =>
    obtain ⟨hadds, hrest⟩ := honly
    exact ih (hlife.perform r) (AllOpened.perform hlife hu hadds) hrest

theorem Lifecycle.exists_recordedAs (hlife : u.Lifecycle done) {record : RoutineRecord}
    (hrecord : record ∈ u.finished.toList) :
    ∃ (id : Nat) (r : Routine), u.routines[id]? = some r ∧ r.RecordedAs record := by
  obtain ⟨id, r, hr, hrecorded⟩ := exists_rel_of_mem hlife.records record hrecord
  exact ⟨id, r, hr, hrecorded⟩

/-- When no routine is open all have ended, since each of them was begun. -/
theorem AllOpened.settled (hlife : u.Lifecycle done) (hu : u.AllOpened)
    (hstarted : u.phase = .started) (hopen : u.openRoutines = []) : u.Settled := by
  refine ⟨hstarted, ⟨done, hlife⟩, fun id hid => ?_⟩
  have hr : u.routines[id]? = some u.routines[id] := Array.getElem?_eq_getElem hid
  have hphase := routinePhase?_of_some hr
  cases hcase : u.routines[id].phase with
  | notStarted => exact absurd hcase (hu id _ hr).begun
  | started =>
    rw [hcase] at hphase
    have hmem := (hlife.mem_open id).mpr hphase
    rw [hopen] at hmem
    cases hmem
  | ended => rw [hphase, hcase]

theorem AllOpened.objectResult (hlife : u.Lifecycle done) (hu : u.AllOpened) :
    ∀ member ∈ u.members, objectResult <:+ member.2 := by
  intro member hmember
  obtain ⟨record, hrecord, rfl⟩ := List.mem_map.mp hmember
  obtain ⟨id, r, hr, hrecorded⟩ := hlife.exists_recordedAs hrecord
  obtain ⟨⟨a, paramCount, hsignature⟩, -⟩ := hu id r hr
  rw [hrecorded.member_eq, hsignature]
  exact objectResult_isSuffix a paramCount

end UnitBuilder

/-! ### The end of a unit -/

/-- The error reports a duplicate routine. The unit compares identities whenever a routine is added,
and verification does so again in what is decoded. -/
def Error.ReportsDuplicate (e : Error) : Prop :=
  (∃ owner x, e = .unit owner (.duplicateRoutine x)) ∨ ∃ x, e = .duplicateRoutine x

theorem Error.IsLimit.not_reportsDuplicate {e : Error} (h : e.IsLimit) : ¬ e.ReportsDuplicate := by
  rintro (⟨owner, x, rfl⟩ | ⟨x, rfl⟩) <;> cases h

namespace Build

open UnitBuilder

variable {u : UnitBuilder} {done : List Nat}

/-- What a unit holds when it is encoded has identities that differ. So verification finds a
duplicate only if it does not read the unit back, because of a text that does not fit. -/
theorem duplicate_of_verify {bytes : Bytes} {e : Error} (hu : u.Settled)
    (hbytes : u.image.encode = .ok bytes) (he : Image.verify bytes = .error e)
    (hreports : e.ReportsDuplicate) :
    (∃ x, e = .duplicateRoutine x) ∧ ∃ c ∈ u.pool.entries, ¬ c.TextsFit := by
  obtain ⟨completed, hlife⟩ := hu.lifecycle
  rcases hreports with ⟨owner, x, rfl⟩ | ⟨x, rfl⟩
  · cases Image.kind_of_verify he
  · refine ⟨⟨x, rfl⟩, ?_⟩
    by_contra! htexts
    have hfits : ∀ c ∈ u.image.constants, c.Fits := fun c hc =>
      Constant.fits_iff.mpr ⟨Image.countable_of_encode hbytes c hc, htexts c hc⟩
    refine Image.verify_ne_duplicateRoutine hbytes rfl hfits ?_ hlife.nodup_entryPoints he
    intro record hrecord
    obtain ⟨_, r, -, _, hrecorded⟩ := hlife.exists_recordedAs hrecord
    obtain ⟨code, -, hlength, -, rfl⟩ := Routine.record_eq_ok hrecorded
    exact hlength.trans_lt (by decide)

theorem ends_assemble_duplicate (hu : u.Settled) (hpool : u.pool.Sound)
    (hobjects : ∀ member ∈ u.members, objectResult <:+ member.2) :
    Ends assemble u (fun _ _ => True) fun e _ => e.ReportsDuplicate →
      (∃ x, e = .duplicateRoutine x) ∧ ∃ c ∈ u.pool.entries, ¬ c.TextsFit := by
  refine Ends.bind (Ends.get (Ends.bind ?_))
  refine (ends_poolAccessors hu hpool hobjects).mono ?_ fun _ _ he hreports =>
    absurd hreports he.not_reportsDuplicate
  rintro - v ⟨⟨count, hsupplies⟩, -⟩
  have hsame : v.pool = u.pool := by
    obtain ⟨_, _, _, _, _, _, rfl⟩ := hsupplies.moves.frame
    rfl
  rw [← hsame] at hpool ⊢
  refine Ends.bind (Ends.get (Ends.bind (ends_ofExcept ?_ fun bytes hbytes => ?_)))
  · intro e he hreports
    rcases Image.encode_eq_error hpool.countable he with hlimit | ⟨part, -, rfl⟩
    · exact absurd hreports (Error.IsLimit.not_reportsDuplicate hlimit)
    · rcases hreports with ⟨_, _, ⟨⟩⟩ | ⟨_, ⟨⟩⟩
  · split
    · refine Ends.bind (Ends.map (ends_ofExcept ?_ fun _ _ => trivial))
      intro e he
      exact duplicate_of_verify (hsupplies.settled hu) hbytes he
    · trivial

/-- **The end of a unit reports no duplicate routine** when all its routines were opened for
functions, unless verification does because of a text that does not fit. -/
theorem ends_finish_duplicate (hlife : u.Lifecycle done) (hpool : u.pool.Sound)
    (hu : u.phase = .ended ∨ u.AllOpened) :
    Ends finish u (fun _ _ => True) fun e _ => e.ReportsDuplicate →
      (∃ x, e = .duplicateRoutine x) ∧ ∃ c ∈ u.pool.entries, ¬ c.TextsFit := by
  by_cases hstarted : u.phase = .started
  swap
  · refine Ends.bind (Ends.of_error (requirePhase_eq_error hstarted) ?_)
    rintro (⟨_, _, ⟨⟩⟩ | ⟨_, ⟨⟩⟩)
  refine Ends.bind (Ends.of_ok (requirePhase_eq hstarted) (Ends.bind (Ends.get ?_)))
  have hopened : u.AllOpened := by
    rcases hu with hended | hopened
    · cases hended.symm.trans hstarted
    · exact hopened
  dsimp only
  split
  · next hempty =>
    have hsettled := hopened.settled hlife hstarted (List.isEmpty_iff.mp hempty)
    refine Ends.bind (ends_attempt ?_)
    refine (ends_assemble_duplicate hsettled hpool (hopened.objectResult hlife)).mono ?_
      fun _ _ he => he
    intro bytes v _
    exact Ends.bind (Ends.modify (Ends.bind (Ends.get (Ends.bind (Ends.modify trivial)))))
  · refine Ends.bind (Ends.get (Ends.bind ?_))
    rintro (⟨_, _, ⟨⟩⟩ | ⟨_, ⟨⟩⟩)

/-- **Identities of routines are unambiguous.** A text is the identity of routines of one name, with
the same parameter types and the same result type, whatever the name holds. A routine that is opened
for a function has an identity that no accessor has, under any name, for any attributes and any
number of parameters; accessors are what is added for the constants of a type. And a unit with no
other routines than those of functions is never kept from ending by a duplicate routine: the unit
itself reports none, and neither does verification when every text in the constants has a length
that fits in four bytes. -/
theorem identities_unambiguous (context : Context) (unit source : Text) (strict : Bool)
    (requests : List UnitRequest) :
    (∀ (name name' : Text) (s s' : Signature),
      name ++ s.descriptor = name' ++ s'.descriptor ↔
        name = name' ∧ s.params = s'.params ∧ s.result = s'.result) ∧
    (∀ (name : Text) (a : Attributes) (paramCount : Nat),
      ¬ Pool.IsAccessor (name ++ (Signature.ofAttributes a paramCount).descriptor)) ∧
    (∀ (u : UnitBuilder) (name : Text) (a : Attributes) (paramCount scopeSize id : Nat)
      (v : UnitBuilder), openRoutine name a paramCount scopeSize u = .ok id v →
        ∃ r, v.routines[id]? = some r ∧ ¬ Pool.IsAccessor r.identity) ∧
    (∀ (type : ValueType) (u v : UnitBuilder), accessor type u = .ok () v →
      ∀ member ∈ v.members, member ∈ u.members ∨ Pool.IsAccessor (identityOf member)) ∧
    let start := UnitBuilder.new context unit source strict
    start.OnlyOpens requests → ∀ e v, finish (start.after requests) = .error e v →
      (∀ owner x, e ≠ .unit owner (.duplicateRoutine x)) ∧
        ((∀ c ∈ (start.after requests).pool.entries, c.TextsFit) →
          ∀ x, e ≠ .duplicateRoutine x) := by
  refine ⟨fun _ _ _ _ => Signature.append_descriptor_inj, Signature.not_isAccessor_ofAttributes,
    ?_, ?_, ?_⟩
  · intro u name a paramCount scopeSize id v hrun
    obtain ⟨-, r, hopened⟩ := (ends_openRoutine_exact u name a paramCount scopeSize).ok hrun
    refine ⟨r, ?_, ?_⟩
    · rw [hopened.eq, hopened.id_eq]
      simp
    · rw [Routine.identity, hopened.signature_eq]
      exact Signature.not_isAccessor_ofAttributes _ a paramCount
  · intro type u v hrun member hmember
    rw [(ends_accessor_members type).ok hrun, List.mem_append] at hmember
    exact hmember.imp_right Pool.isAccessor_of_mem
  · intro start honly e v hrun
    have hlife := (lifecycle_new context unit source strict).after requests
    have hpool : (start.after requests).pool.Sound :=
      (course_after start requests).pool_sound (.empty unit)
    have hopened := AllOpened.after (lifecycle_new context unit source strict)
      (.inr fun id r hr => by simp [new] at hr) honly
    have hreports := (ends_finish_duplicate hlife hpool hopened).error hrun
    constructor
    · rintro owner x rfl
      obtain ⟨⟨_, ⟨⟩⟩, -⟩ := hreports (.inl ⟨owner, x, rfl⟩)
    · rintro htexts x rfl
      obtain ⟨-, c, hc, hlong⟩ := hreports (.inr ⟨x, rfl⟩)
      exact hlong (htexts c hc)

/-- Two functions are called like the accessor for strings is known, and one of them fetches a
string. A routine is asked for too early, and a void field keeps the unit from being accepted. -/
def misleadingUnit : List UnitRequest :=
  [.staticInitializer, .begin, .openRoutine "$getString(I)T" {} 1 0,
    .openRoutine "$getString(I)T" {} 1 0, .onRoutine 1 (.emission .pushNull),
    .onRoutine 1 (.emission .returnValue), .loadConstant 0 (.string "text"),
    .onRoutine 0 (.emission .returnValue), .endRoutine 1, .endRoutine 0,
    .field { flags := Flags.ofList [], name := "nothing", type := .void }]

/-- The accessor is added next to the functions, and the unit is refused for another reason than a
duplicate routine. -/
theorem misleadingUnit_unambiguous :
    let u := (UnitBuilder.new { options := { verify := true } } "unit" "source" true).after
      misleadingUnit
    (leaves assemble u).entryPoints = [("$getString(I)T$1(OO)O" : Text),
      ("$getString(I)T(OO)O" : Text), ("$getString(I)T" : Text)] ∧
    ∃ e v, finish u = .error e v ∧ (∀ owner x, e ≠ .unit owner (.duplicateRoutine x)) ∧
      ∀ x, e ≠ .duplicateRoutine x := by
  intro u
  have hrun : finish.run' u = none := by decide +kernel
  obtain ⟨e, v, hfinish⟩ := exists_of_run'_eq_none hrun
  obtain ⟨-, -, -, -, hnone⟩ := identities_unambiguous { options := { verify := true } } "unit"
    "source" true misleadingUnit
  -- the only request for another routine is refused
  have honly : (UnitBuilder.new { options := { verify := true } } "unit" "source" true).OnlyOpens
      misleadingUnit :=
    ⟨fun _ => ⟨_, _, rfl⟩, False.elim, False.elim, False.elim, False.elim, False.elim, False.elim,
      False.elim, False.elim, False.elim, False.elim, trivial⟩
  obtain ⟨hunit, hverify⟩ := hnone honly e v hfinish
  refine ⟨by decide +kernel, e, v, hfinish, hunit, hverify fun c hc => ?_⟩
  rcases mem_entries_after hc with hnew | ⟨r, hr, hc⟩
  · cases hnew
  · fin_cases hr <;> cases hc
    decide

/-! ### A text that spells routines -/

/-- A unit that can be encoded but is not accepted does not end. -/
theorem ends_finish_of_verify {w : UnitBuilder} {bytes : Bytes} {e : Error}
    (hstarted : u.phase = .started) (hclosed : u.openRoutines.isEmpty)
    (haccessors : u.pool.accessors.forM accessor u = .ok () w)
    (hoption : w.context.options.verify = true) (hbytes : w.image.encode = .ok bytes)
    (hverify : Image.verify bytes = .error e) :
    Ends finish u (fun _ _ => False) fun e' _ => e' = e := by
  refine Ends.bind (Ends.of_ok (requirePhase_eq hstarted) (Ends.bind (Ends.get ?_)))
  simp only [hclosed, if_true]
  refine Ends.bind (ends_attempt (Ends.bind (Ends.get (Ends.bind (Ends.of_ok haccessors ?_)))))
  refine Ends.bind (Ends.get (Ends.bind (ends_ofExcept ?_ fun bytes' hbytes' => ?_)))
  · intro e' he
    cases hbytes.symm.trans he
  obtain rfl := Except.ok.inj (hbytes.symm.trans hbytes')
  simp only [hoption, if_true, hverify]
  exact Ends.bind (Ends.of_error rfl rfl)

/-- A unit whose only constant spells two routines, with what follows it, is refused for them. -/
theorem duplicate_of_twoIdle {context : Context} {name source : Text} {strict : Bool}
    {requests : List UnitRequest} {type : ValueType} {w : UnitBuilder} {tail : Bytes}
    (hu : (new context name source strict).after requests = u)
    (honly : ∀ r ∈ requests, ∀ c, r.constant? = some c → c = .string (Image.twoIdle tail.length))
    (hsize : u.pool.size = 1) (hstarted : u.phase = .started) (hclosed : u.openRoutines.isEmpty)
    (htypes : u.pool.accessors = [type]) (haccessor : accessor type u = .ok () w)
    (hoption : w.context.options.verify = true) (hencode : Succeeds w.image.encode)
    (hfields : ∀ f ∈ w.image.fields, f.type ≠ .void)
    (hnodup : (w.image.fields.map Field.name).Nodup)
    (htail : Image.encodePart .routines Image.encodeRoutine w.image.routines = .ok tail)
    (hshort : tail.length < 165) : ∃ x v, finish u = .error (.duplicateRoutine x) v := by
  obtain ⟨bytes, hbytes⟩ := hencode
  have hentries : w.image.constants = [.string (Image.twoIdle tail.length)] := by
    have hpool : w.pool = u.pool := ((stepwise_accessor type u).ok haccessor).pool_eq
    subst hu
    exact (congrArg Pool.entries hpool).trans (entries_eq_singleton honly hsize)
  obtain ⟨x, hverify⟩ := Image.verify_twoIdle hbytes rfl hfields hnodup htail hshort hentries
  have haccessors : u.pool.accessors.forM accessor u = .ok () w := by
    rw [htypes]
    show EStateM.bind (accessor type) (fun _ => pure ()) u = _
    rw [EStateM.bind, haccessor]
    rfl
  have hends := ends_finish_of_verify hstarted hclosed haccessors hoption hbytes hverify
  cases hrun : finish u with
  | ok _ v => exact (hends.ok hrun).elim
  | error e v =>
    obtain rfl := hends.error hrun
    exact ⟨x, v, rfl⟩

/-- A function loads a text and returns it. -/
def spellingUnit (text : Text) : List UnitRequest :=
  [.begin, .openRoutine "f" {} 0 0, .loadConstant 0 (.string text),
    .onRoutine 0 (.emission .returnValue), .endRoutine 0]

theorem constant_of_mem_spellingUnit {text : Text} :
    ∀ r ∈ spellingUnit text, ∀ c, r.constant? = some c → c = .string text := by
  intro r hr c hc
  simp only [spellingUnit, List.mem_cons, List.not_mem_nil, or_false] at hr
  rcases hr with rfl | rfl | rfl | rfl | rfl <;> cases hc
  rfl

/-- The unit has one function, and one string is loaded in it. Verification takes a part of the
string for two routines of the same identity. -/
theorem finish_spellingUnit :
    let start := UnitBuilder.new { options := { verify := true } } "u" "s" false
    start.OnlyOpens (spellingUnit (Image.twoIdle 72)) ∧
      ∃ x v, finish (start.after (spellingUnit (Image.twoIdle 72))) =
        .error (.duplicateRoutine x) v := by
  intro start
  refine ⟨⟨False.elim, False.elim, False.elim, False.elim, False.elim, trivial⟩, ?_⟩
  have honly := @constant_of_mem_spellingUnit (Image.twoIdle 72)
  generalize hrequests : spellingUnit (Image.twoIdle 72) = requests at *
  generalize hu : start.after requests = u
  obtain ⟨hsize, hstarted, hclosed, htypes, hrun⟩ : u.pool.size = 1 ∧ u.phase = .started ∧
      u.openRoutines.isEmpty ∧ u.pool.accessors = [.string] ∧
      (accessor .string).run' u = some () := by
    rw [← hu, ← hrequests]
    decide +kernel
  obtain ⟨w, hw⟩ := exists_of_run' hrun
  obtain ⟨hoption, hencode, hfields, hnodup, htail⟩ : w.context.options.verify = true ∧
      w.image.encode.toOption.isSome ∧ (∀ f ∈ w.image.fields, f.type ≠ .void) ∧
      (w.image.fields.map Field.name).Nodup ∧
      (Image.encodePart .routines Image.encodeRoutine w.image.routines).toOption.map
        List.length = some 72 := by
    have hleaves : leaves (accessor .string) u = w := by rw [leaves, hw]
    rw [← hleaves, ← hu, ← hrequests]
    decide +kernel
  obtain ⟨tail, htail, hlength⟩ := Option.map_eq_some_iff.mp htail
  rw [← hlength] at honly
  obtain ⟨bytes, hbytes⟩ := Option.isSome_iff_exists.mp hencode
  exact duplicate_of_twoIdle hu honly hsize hstarted hclosed htypes hw hoption
    ⟨bytes, eq_ok_of_toOption hbytes⟩ hfields hnodup (eq_ok_of_toOption htail) (by omega)

end Build

end Bytecode
