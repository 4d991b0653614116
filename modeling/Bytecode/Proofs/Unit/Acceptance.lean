import Mathlib
import Bytecode.Proofs.Image.LongTexts
import Bytecode.Proofs.Unit.Constants

/-!
# Finished units are accepted

The verifier accepts a unit that could be finished, and reads back what the unit contained, unless a
text in its constants is too long for the length that is written. For all other units, verifying
them while they are finished is a check on construction itself: it does not turn down any client.

## Main results

* `Build.verify_of_finish`: which finished units are accepted
* `Build.verify_zeros`: a finished unit that is not accepted
-/

namespace Bytecode

/-- **The verifier accepts the finished units whose texts fit.** Whatever was asked of the unit
before, and whichever of it failed, the verifier gives back its names, symbols, fields, constants
and the records of its ended routines, in order, exactly when every text in its constants has a
length that fits in four bytes. -/
theorem Build.verify_of_finish {context : Context} {name source : Text} {strict : Bool}
    {requests : List UnitRequest} {u : UnitBuilder}
    (hfields : ∀ f, .field f ∈ requests → f.type ≠ .void)
    (hfinish : Build.finish ((UnitBuilder.new context name source strict).after requests) =
      .ok () u) :
    Build.toBytes u = .ok u.bytes u ∧
      (Image.verify u.bytes = .ok {
        name
        source
        strict
        symbols := u.symbols.entries
        fields := u.fields.toList
        constants := u.pool.entries
        routines := u.finished.toList } ↔ ∀ c ∈ u.pool.entries, c.TextsFit) := by
  have hafter := UnitBuilder.evolves_after
    (UnitBuilder.sound_new context name source strict) hfields
  obtain ⟨hfinished, hbytes, hphase⟩ := (Build.ends_finish hafter.sound).ok hfinish
  obtain ⟨hname, hsource, hstrict⟩ : u.name = name ∧ u.source = source ∧ u.strict = strict := by
    have hheader := (hafter.trans hfinished).header_eq
    simpa [UnitBuilder.header, UnitBuilder.new] using hheader
  subst hname hsource hstrict
  exact ⟨Build.toBytes_of_ended hphase, hfinished.sound.verify_image_iff hbytes⟩

theorem Build.interleavedUnit_verified : ∃ u : UnitBuilder,
    Build.finish ((UnitBuilder.new {} "unit" "source" true).after interleavedUnit) = .ok () u ∧
      u.entryPoints = [("second()T" : Text), ("first()I" : Text), ("$getString(I)T" : Text)] ∧
      Image.verify u.bytes = .ok {
        name := "unit"
        source := "source"
        strict := true
        symbols := u.symbols.entries
        fields := u.fields.toList
        constants := u.pool.entries
        routines := u.finished.toList } := by
  let start := (UnitBuilder.new {} "unit" "source" true).after interleavedUnit
  have hrun : Build.finish.run' start = some () := by decide +kernel
  obtain ⟨u, hu⟩ := exists_of_run' hrun
  have hleaves : leaves Build.finish start = u := by rw [leaves, hu]
  have hentries :
      u.entryPoints = [("second()T" : Text), ("first()I" : Text), ("$getString(I)T" : Text)] := by
    rw [← hleaves]
    decide +kernel
  have htexts : ∀ c ∈ u.pool.entries, c.TextsFit := by
    rw [← hleaves]
    decide +kernel
  have hfields : ∀ f, .field f ∈ interleavedUnit → f.type ≠ .void := by
    intro f hf
    obtain rfl | rfl : f = _ ∨ f = _ := by simpa [interleavedUnit] using hf
    · decide
    · decide
  exact ⟨u, hu, hentries, (Build.verify_of_finish hfields hu).2.mpr htexts⟩

/-! ### A text that is too long -/

/-- Requests that pool one constant leave it alone in the pool. -/
theorem UnitBuilder.entries_eq_singleton {context : Context} {name source : Text} {strict : Bool}
    {requests : List UnitRequest} {c : Constant}
    (honly : ∀ r ∈ requests, ∀ d, r.constant? = some d → d = c)
    (hsize : ((new context name source strict).after requests).pool.size = 1) :
    ((new context name source strict).after requests).pool.entries = [c] := by
  rw [← Pool.length_entries] at hsize
  obtain ⟨d, hd⟩ := List.length_eq_one_iff.mp hsize
  have hmem : d ∈ ((new context name source strict).after requests).pool.entries := by
    rw [hd]
    exact List.mem_cons_self
  rcases mem_entries_after hmem with hnew | ⟨r, hr, hc⟩
  · cases hnew
  · rw [hd, honly r hr d hc]

/-- The bytes of a unit whose one constant is a text of zeros that is too long cannot be read. -/
theorem Build.decode_of_finish_zeros {context : Context} {name source : Text} {strict : Bool}
    {requests : List UnitRequest} {n : Nat} {u : UnitBuilder}
    (hfields : ∀ f, .field f ∈ requests → f.type ≠ .void)
    (honly : ∀ r ∈ requests, ∀ c, r.constant? = some c → c = .string (.zeros n))
    (hsize : ((UnitBuilder.new context name source strict).after requests).pool.size = 1)
    (hfinish : Build.finish ((UnitBuilder.new context name source strict).after requests) =
      .ok () u) (hpos : 0 < n) (hlength : n.toUInt32 = 0) :
    Build.toBytes u = .ok u.bytes u ∧ Image.decode u.bytes = .error (.format .trailingBytes) := by
  have hentries : u.pool.entries = [.string (.zeros n)] := by
    rw [((Build.stepwise_finish _).ok hfinish).pool_eq]
    exact UnitBuilder.entries_eq_singleton honly hsize
  have hafter := UnitBuilder.evolves_after (UnitBuilder.sound_new context name source strict)
    hfields
  obtain ⟨hfinished, hencode, hphase⟩ := (Build.ends_finish hafter.sound).ok hfinish
  refine ⟨Build.toBytes_of_ended hphase, ?_⟩
  exact Image.decode_zeros hencode rfl hfinished.sound.fields hentries hpos hlength

/-- A routine loads a text and drops it again. -/
def textUnit (text : Text) : List UnitRequest :=
  [.begin, .routine (Flags.ofList [.isStatic]) "r" { result := .void }, .beginRoutine 0,
    .loadConstant 0 (.string text), .onRoutine 0 (.emission .pop),
    .onRoutine 0 (.emission .returnVoid), .endRoutine 0]

theorem constant_of_mem_textUnit {text : Text} :
    ∀ r ∈ textUnit text, ∀ c, r.constant? = some c → c = .string text := by
  intro r hr c hc
  simp only [textUnit, List.mem_cons, List.not_mem_nil, or_false] at hr
  rcases hr with rfl | rfl | rfl | rfl | rfl | rfl | rfl <;> cases hc
  rfl

theorem field_notMem_textUnit {text : Text} :
    ∀ f, .field f ∈ textUnit text → f.type ≠ .void := by
  intro f hf
  simp [textUnit] at hf

/-- A unit with a text of 4294967296 zeros is finished, but its bytes are not accepted. -/
theorem Build.verify_zeros : ∃ u : UnitBuilder,
    Build.finish ((UnitBuilder.new {} "u" "s" false).after (textUnit (.zeros 4294967296))) =
      .ok () u ∧
    Build.toBytes u = .ok u.bytes u ∧
    Image.verify u.bytes = .error (.format .trailingBytes) := by
  have hrun : Build.finish.run' ((UnitBuilder.new {} "u" "s" false).after
      (textUnit (.zeros 4294967296))) = some () := by decide +kernel
  have hsize : ((UnitBuilder.new {} "u" "s" false).after
      (textUnit (.zeros 4294967296))).pool.size = 1 := by decide +kernel
  have honly := @constant_of_mem_textUnit (.zeros 4294967296)
  have hfields := @field_notMem_textUnit (.zeros 4294967296)
  -- the unit is not to be evaluated again
  generalize textUnit (.zeros 4294967296) = requests at *
  obtain ⟨u, hu⟩ := exists_of_run' hrun
  obtain ⟨hbytes, hdecode⟩ :=
    Build.decode_of_finish_zeros hfields honly hsize hu (by decide) (by decide)
  refine ⟨u, hu, hbytes, ?_⟩
  rw [Image.verify, hdecode]
  rfl

end Bytecode
