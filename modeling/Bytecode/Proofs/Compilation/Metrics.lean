import Mathlib
import Bytecode.Proofs.Compilation.ScopeRecords
import Bytecode.Proofs.Unit.Counters

/-!
# Metrics of a compilation

Analysis counts the functions one by one, inner ones first, and the unit counts what it is made of.
Both write to the same metrics. When the compilation has come out, the numbers there are those of
the program and of the unit, which is read back from the bytes if its texts fit.

## Main definitions

* `Function.treeKeys`: what is counted for a function and all inside it
* `Metrics.Describes`: the metrics describe a program and the unit that was made of it

## Main results

* `Function.ends_analyse_tallies`: analysis counts each function of the tree
* `Build.program_accounts`: the metrics of a unit that was made
* `UnitBuilder.Accounts.describes`: what was counted for a unit and its program describes both
* `compile_metrics`: the metrics agree with the program and its unit
* `metrics_compile_zeros`: a compiled unit that is counted, but cannot be read back
-/

namespace Bytecode

/-! ### Analysis -/

namespace Metrics

/-- The key for the number of functions. -/
def functionsKey : Text := "analysis.functions"

/-- The key for the number of functions that use `eval`. -/
def evalKey : Text := "analysis.eval_functions"

/-- The key for the number of functions that are split. -/
def splitKey : Text := "analysis.split_functions"

end Metrics

/-- What is counted for a function with the given attributes. -/
def Attributes.analysisKeys (a : Attributes) : List Text :=
  (if a.isSplit then [Metrics.splitKey] else []) ++ (if a.hasEval then [Metrics.evalKey] else []) ++
    [Metrics.functionsKey]

namespace Function

variable {c : Context} {tree : Option TreeSize} {keys : List Text} {strict : Bool}

/-- What is counted for an analysed function. -/
def analysisKeys (f : Function) : List Text :=
  match f.facts with
  | none => []
  | some facts => facts.attributes.analysisKeys

/-- What is counted for a function and all inside it. -/
def treeKeys (f : Function) : List Text := f.preorder.flatMap analysisKeys

theorem treeKeys_eq (f : Function) :
    f.treeKeys = f.analysisKeys ++ f.functions.flatMap treeKeys := by
  rw [treeKeys, preorder_eq, List.flatMap_cons, List.flatMap_assoc]
  rfl

theorem tallies_reportAnalysis (f : Function) (a : Attributes) (h : c.Tallies tree keys) :
    (f.reportAnalysis a c).Tallies tree (a.analysisKeys ++ keys) := by
  have hfunctions : (c.count Metrics.functionsKey 1).Tallies tree
      ([Metrics.functionsKey] ++ keys) := h.count _ one_ne_zero
  have hall := (hfunctions.countIf Metrics.evalKey a.hasEval).countIf Metrics.splitKey a.isSplit
  rw [← List.append_assoc, ← List.append_assoc] at hall
  -- what is logged besides does not change the metrics
  have hlogged : ∀ c' : Context,
      (if c'.tracesAnalysis then c'.write (f.analysisLine a) else c').metrics = c'.metrics := by
    intro c'
    split <;> rfl
  exact hall.of_metrics (hlogged _)

/-- A function is counted when it is analysed, after those inside it. -/
theorem ends_conclude_tallies {f : Function} {found : Findings} (h : c.Tallies tree keys) :
    Ends (conclude f found) c
      (fun f' c' => c'.Tallies tree (f'.analysisKeys ++ keys) ∧ f'.functions = f.functions)
      fun _ _ => True := by
  refine Ends.bind (Ends.get ?_)
  dsimp only
  split
  · exact Ends.bind (Ends.throw trivial)
  · exact Ends.bind (Ends.modify ⟨f.tallies_reportAnalysis _ h, rfl⟩)

theorem ends_finalize_tallies {table : Table} {outer : Bool} {address : Address} {f : Function}
    (hfound : table.Describes outer ⟨address, f⟩) (h : c.Tallies tree keys) :
    Ends (finalize table address f) c (fun f' c' => c'.Tallies tree (f'.treeKeys ++ keys))
      fun _ _ => True := by
  induction f using Function.induct generalizing outer address c keys with
  | h f ih =>
    have hall : Ends (finalizeAll table address 0 [] f.functions) c
        (fun result c' => c'.Tallies tree (result.reverse.flatMap treeKeys ++ keys))
        fun _ _ => True := by
      refine ends_finalizeAll (P := fun _ done c =>
        c.Tallies tree (done.flatMap treeKeys ++ keys)) (fun i g hg done c hc => ?_) h
      simp only [Nat.zero_add, List.flatMap_cons, List.append_assoc]
      exact ih g (List.mem_of_getElem? hg) (hfound.inner hg) hc
    rw [finalize_eq hfound.self]
    refine hall.next ?_
    intro functions c' hc'
    refine (ends_conclude_tallies hc').mono ?_ fun _ _ _ => trivial
    rintro f' c'' ⟨hkeys, hfunctions⟩
    -- the functions are counted last first, but it is only the number of keys that matters
    have hperm : (functions.reverse.flatMap treeKeys).Perm (functions.flatMap treeKeys) :=
      (List.reverse_perm functions).flatMap_right treeKeys
    rw [treeKeys_eq, hfunctions, List.append_assoc]
    exact hkeys.perm ((hperm.append_right keys).append_left f'.analysisKeys)

/-- **Analysis counts each function of the tree.** -/
theorem ends_analyse_tallies {f : Function} (hf : f.facts = none) (h : c.Tallies tree keys) :
    Ends f.analyse c (fun f' c' => c'.Tallies tree (f'.treeKeys ++ keys)) fun _ _ => True := by
  unfold analyse Place.analyse
  dsimp only
  rw [hf]
  refine Ends.bind (Ends.modify (Ends.bind (Ends.get ?_)))
  have hfound : ((Table.collect c.options.strict [] ∅ f).resolve [] [] f).Describes
      c.options.strict ⟨[], f⟩ := Table.describes_resolve_collect (by simp) c.options.strict
  refine Context.ends_ending ((ends_finalize_tallies hfound (h.start "Analyze")).mono ?_ ?_)
  · exact fun _ _ hc => hc.stop "Analyze"
  · exact fun _ _ _ => trivial

/-! ### Functions and their keys -/

/-- Whether the function was analysed, and has an attribute. -/
def has (wanted : Attributes → Bool) (f : Function) : Bool :=
  f.facts.any fun facts => wanted facts.attributes

/-- A key that is counted for the functions with an attribute shows how many they are. -/
theorem count_treeKeys {key : Text} {wanted : Attributes → Bool}
    (hkey : ∀ a : Attributes, a.analysisKeys.count key = if wanted a then 1 else 0)
    (f : Function) : f.treeKeys.count key = f.preorder.countP (has wanted) := by
  have hone : ∀ g : Function, g.analysisKeys.count key = if g.has wanted then 1 else 0 := by
    intro g
    unfold analysisKeys has
    cases g.facts with
    | none => rfl
    | some facts => exact hkey facts.attributes
  unfold treeKeys
  induction f.preorder with
  | nil => rfl
  | cons g rest ih =>
    rw [List.flatMap_cons, List.count_append, hone, ih, List.countP_cons, Nat.add_comm]

theorem count_evalKey (f : Function) :
    f.treeKeys.count Metrics.evalKey = f.preorder.countP (has (·.hasEval)) := by
  refine count_treeKeys (fun a => ?_) f
  unfold Attributes.analysisKeys
  cases a.isSplit <;> cases a.hasEval <;> decide

theorem count_splitKey (f : Function) :
    f.treeKeys.count Metrics.splitKey = f.preorder.countP (has (·.isSplit)) := by
  refine count_treeKeys (fun a => ?_) f
  unfold Attributes.analysisKeys
  cases a.isSplit <;> cases a.hasEval <;> decide

/-- Every function of a tree that was analysed is counted. -/
theorem count_functionsKey {f : Function} (hf : ∀ g ∈ f.preorder, ∃ a, g.attributes = .ok a) :
    f.treeKeys.count Metrics.functionsKey = f.preorder.length := by
  have hkey : ∀ a : Attributes,
      a.analysisKeys.count Metrics.functionsKey = if true then 1 else 0 := by
    intro a
    unfold Attributes.analysisKeys
    cases a.isSplit <;> cases a.hasEval <;> decide
  rw [count_treeKeys hkey]
  refine List.countP_eq_length.mpr fun g hg => ?_
  obtain ⟨a, ha⟩ := hf g hg
  unfold attributes at ha
  unfold has
  cases hfacts : g.facts with
  | none =>
    rw [hfacts] at ha
    cases ha
  | some facts => rfl

/-- The keys under which analysis counts. -/
def allKeys : List Text := [Metrics.splitKey, Metrics.evalKey, Metrics.functionsKey]

theorem mem_treeKeys {f : Function} {key : Text} (h : key ∈ f.treeKeys) : key ∈ allKeys := by
  obtain ⟨g, -, hkey⟩ := List.mem_flatMap.mp h
  unfold analysisKeys at hkey
  split at hkey
  · cases hkey
  · next facts _ =>
    have hparts : (facts.attributes.isSplit = true ∧ key = Metrics.splitKey ∨
        facts.attributes.hasEval = true ∧ key = Metrics.evalKey) ∨ key = Metrics.functionsKey := by
      simpa [Attributes.analysisKeys, or_assoc] using hkey
    rcases hparts with (⟨-, rfl⟩ | ⟨-, rfl⟩) | rfl <;> decide

end Function

/-! ### The unit -/

/-- The metrics of a unit that was made, when the numbers before it are known. -/
theorem Build.program_accounts {context : Context} {name source : Text} {strict : Bool}
    {lower : Lowering} {calls : Handover → List UnitRequest} {fs : List Function} {bytes : Bytes}
    {entryPoints : List Text} {w : UnitBuilder} {tree : Option TreeSize} {keys : List Text}
    (hcalls : ∀ h ∈ lower.programHandovers fs (.new context name source strict),
      lower.Makes calls h)
    (hrun : Build.program lower fs (.new context name source strict) =
      .ok (bytes, entryPoints) w)
    (hcontext : context.Tallies tree keys) (hkeys : Metrics.constantsKey ∉ keys) :
    ∃ n m, w.Accounts tree (UnitBuilder.accessorKeys n ++ keys) m ∧
      w.finished.size = fs.length + n ∧ w.image.encode = .ok w.bytes ∧ bytes = w.bytes := by
  obtain ⟨v, hbegin, hfunctions, hfinish, rfl, rfl⟩ := program_eq_ok hrun
  obtain ⟨hmade, hevolves, -, requests, hv, hrequests, -⟩ :=
    functions_pooled hcalls hbegin hfunctions
  -- there are no records yet when the unit is begun
  have hstart : (UnitBuilder.new context name source strict).Tallies tree keys := hcontext
  have htallies : v.Tallies tree keys := hv ▸ hstart.after hrequests
  obtain ⟨n, m, hsize, hm⟩ := (ends_finish_accounts htallies hkeys).ok hfinish
  obtain ⟨-, hencode, -⟩ := (ends_finish hevolves.sound).ok hfinish
  have hlength : fs.length = v.finished.size := by
    rw [hmade.recordedAs.length_eq, Array.length_toList]
  exact ⟨n, m, hm, by rw [hsize, hlength], hencode, rfl⟩

namespace Metrics

variable {m : Metrics}

/-- A counter as a number. -/
def number? (m : Metrics) (key : Text) : Option Nat := m.counters[key]?.map UInt64.toNat

/-- A number that is left out when it is zero. -/
def unlessZero (n : Nat) : Option Nat := if n = 0 then none else some n

theorem unlessZero_of_pos {n : Nat} (h : 0 < n) : unlessZero n = some n := if_neg h.ne'

/-- Numbers that fit in two bytes are shown as they are. -/
theorem toNat_toUInt64 {n : Nat} (h : n ≤ 65535) : n.toUInt64.toNat = n :=
  UInt64.toNat_ofNat_of_lt' (h.trans_lt (by decide))

theorem map_shown {n : Nat} (h : n ≤ 65535) : (shown n).map UInt64.toNat = unlessZero n := by
  unfold shown unlessZero
  split
  · rfl
  · rw [Option.map_some, toNat_toUInt64 h]

/-- **The metrics describe a program and the unit that was made of it.** Counters show numbers of
functions and numbers of what the unit has. Those that may be zero are not there in this case,
except the number of constants. The size in bytes is a number of 64 bits. -/
structure Describes (m : Metrics) (program : Function) (image : Image) (bytes : Bytes) : Prop where
  tree : ∃ size, m.tree = some size ∧ size.functions.toNat = program.preorder.length
  functions : m.number? "analysis.functions" = some program.preorder.length
  evalFunctions : m.number? "analysis.eval_functions" =
    unlessZero (program.preorder.countP (Function.has (·.hasEval)))
  splitFunctions : m.number? "analysis.split_functions" =
    unlessZero (program.preorder.countP (Function.has (·.isSplit)))
  routines : m.number? "emit.routines" = some image.routines.length
  functions_le : program.preorder.length ≤ image.routines.length
  accessors : m.number? "emit.accessors" =
    unlessZero (image.routines.length - program.preorder.length)
  constants : m.number? "emit.constants" = some image.constants.length
  bytes : m.gauges[bytesKey]? = some bytes.length.toUInt64

/-- Timers are not described. -/
theorem Describes.stop {program : Function} {image : Image} {bytes : Bytes}
    (h : m.Describes program image bytes) (stage : Text) :
    (m.stop stage).Describes program image bytes := by
  unfold Metrics.stop
  split
  · exact h
  · exact ⟨h.tree, h.functions, h.evalFunctions, h.splitFunctions, h.routines, h.functions_le,
      h.accessors, h.constants, h.bytes⟩

end Metrics

namespace UnitBuilder

variable {u : UnitBuilder} {tree : Option TreeSize} {keys : List Text} {m : Metrics}

theorem Accounts.number?_eq (h : u.Accounts tree keys m) {key : Text} {n : Nat}
    (hkey : key ≠ Metrics.constantsKey) (hcount : (u.recordKeys ++ keys).count key = n)
    (hn : n ≤ 65535) : m.number? key = Metrics.unlessZero n := by
  rw [Metrics.number?, h.counters_eq key hkey, hcount, Metrics.map_shown hn]

theorem count_unitKeys (u : UnitBuilder) (n : Nat) (keys : List Text) (key : Text) :
    (u.recordKeys ++ (accessorKeys n ++ keys)).count key =
      (if Metrics.routinesKey = key then u.finished.size else 0) +
        ((if Metrics.accessorsKey = key then n else 0) + keys.count key) := by
  simp only [recordKeys, accessorKeys, List.count_append, List.count_replicate, beq_iff_eq]

/-- **What was counted for a unit and its program describes both.** -/
theorem Accounts.describes {program : Function} {n : Nat}
    (h : u.Accounts (some program.treeSize) (accessorKeys n ++ program.treeKeys) m)
    (hsize : u.finished.size = program.preorder.length + n)
    (hencode : u.image.encode = .ok u.bytes)
    (hprogram : ∀ f ∈ program.preorder, ∃ a, f.attributes = .ok a) :
    m.Describes program u.image u.bytes := by
  -- a unit that can be encoded has at most 65535 routines and constants, so no number wraps round
  obtain ⟨-, -, -, -, ⟨hconstants, -⟩, hroutines, -⟩ :=
    (Image.succeeds_encode_iff u.image).mp ⟨u.bytes, hencode⟩
  have hlength : u.image.routines.length = u.finished.size := Array.length_toList
  have hpool : u.image.constants.length = u.pool.size := u.pool.length_entries
  have hpos : 0 < program.preorder.length := by
    rw [Function.preorder_eq]
    exact Nat.succ_pos _
  have hcounted : ∀ p : Function → Bool, program.preorder.countP p ≤ 65535 := fun p => by
    have := program.preorder.countP_le_length (p := p)
    omega
  -- the unit and the analysis have different keys
  have hanalysis : ∀ key ∈ Function.allKeys,
      (u.recordKeys ++ (accessorKeys n ++ program.treeKeys)).count key =
        program.treeKeys.count key := by
    intro key hkey
    have hroutine : Metrics.routinesKey ≠ key := fun heq => absurd (heq ▸ hkey) (by decide)
    have haccessor : Metrics.accessorsKey ≠ key := fun heq => absurd (heq ▸ hkey) (by decide)
    rw [count_unitKeys, if_neg hroutine, if_neg haccessor, Nat.zero_add, Nat.zero_add]
  have hunit : ∀ key, key ∉ Function.allKeys → program.treeKeys.count key = 0 := fun key hkey =>
    List.count_eq_zero.mpr fun hmem => hkey (Function.mem_treeKeys hmem)
  constructor
  case tree => exact ⟨_, h.tree_eq, Metrics.toNat_toUInt64 (by omega)⟩
  case functions =>
    have hcount := (hanalysis _ (by decide)).trans (Function.count_functionsKey hprogram)
    exact (h.number?_eq (by decide) hcount (by omega)).trans (Metrics.unlessZero_of_pos hpos)
  case evalFunctions =>
    have hcount := (hanalysis _ (by decide)).trans program.count_evalKey
    exact h.number?_eq (by decide) hcount (hcounted _)
  case splitFunctions =>
    have hcount := (hanalysis _ (by decide)).trans program.count_splitKey
    exact h.number?_eq (by decide) hcount (hcounted _)
  case routines =>
    have hcount := u.count_unitKeys n program.treeKeys Metrics.routinesKey
    rw [if_pos rfl, if_neg (by decide), hunit _ (by decide), ← hlength] at hcount
    exact (h.number?_eq (by decide) hcount hroutines).trans (Metrics.unlessZero_of_pos (by omega))
  case functions_le => omega
  case accessors =>
    have hcount := u.count_unitKeys n program.treeKeys Metrics.accessorsKey
    have hn : u.image.routines.length - program.preorder.length = n := by omega
    rw [if_neg (by decide), if_pos rfl, hunit _ (by decide), Nat.zero_add] at hcount
    rw [hn]
    exact h.number?_eq (by decide) hcount (by omega)
  case constants =>
    -- this number is set once, when the unit is complete
    show m.counters[Metrics.constantsKey]?.map UInt64.toNat = _
    rw [h.constants_eq, Option.map_some, hpool, Metrics.toNat_toUInt64 (hpool ▸ hconstants)]
  case bytes => exact h.bytes_eq

end UnitBuilder

/-! ### Compilation -/

/-- What a compilation leaves in the context is what its unit does, with the timer stopped. -/
theorem context_compile {lower : Lowering} {unitName : Text} {root program : Function}
    {context context' : Context} {a : Attributes} {x : Bytes × List Text} {w : UnitBuilder}
    (hanalyse : root.analyse context = .ok program context') (ha : program.attributes = .ok a)
    (hprogram : Build.program lower program.preorder
      (startUnit unitName program a.isStrict context') = .ok x w) :
    (compile lower unitName root context).context = w.context.measure (·.stop "Emit") := by
  let start := startUnit unitName program a.isStrict context'
  have hself : Ends (Build.program lower program.preorder) start (fun _ v => v = w)
      fun _ _ => False := Ends.of_ok hprogram rfl
  have hends := Emitting.ends_program (s := ⟨start, program⟩) hself
  cases hrun : Emitting.program lower program ⟨start, program⟩ with
  | ok x s =>
    rw [← hends.ok hrun]
    simp only [start, startUnit] at hrun
    simp only [compile, hanalyse, ha, emitProgram, hrun]
  | error e s => exact (hends.error hrun).1.elim

/-- **The metrics agree with the program and its unit.** The counters are empty before, and the
program was not analysed. Whatever requests about routines the lowering makes: when the program is
compiled, the metrics describe the program and the unit that was made. They are counted one by one,
by the analysis and by the unit, and no stage knows the numbers of the others. The constants of the
unit are some that the lowering loads, and it is read back from its bytes exactly when every text in
them has a length that fits in four bytes. -/
theorem compile_metrics {lower : Lowering} {calls : Handover → List UnitRequest} {unitName : Text}
    {root : Function} {context : Context} {m : Metrics} {bytes : Bytes} {entryPoints : List Text}
    (hroot : root.facts = none) (hmetrics : context.metrics = some m) (hempty : m.counters = ∅)
    (hcalls : ∀ h ∈ lower.handed unitName root context, lower.Makes calls h)
    (hcompiled : (compile lower unitName root context).outcome = .compiled bytes entryPoints) :
    let compilation := compile lower unitName root context
    ∃ m' image, compilation.context.metrics = some m' ∧ image.encode = .ok bytes ∧
      (∀ c ∈ image.constants, Lowering.Loads calls (lower.handed unitName root context) c) ∧
      (Image.decode bytes = .ok image ↔ ∀ c ∈ image.constants, c.TextsFit) ∧
      m'.Describes compilation.program image bytes ∧
      compilation.program.preorder.length = root.preorder.length ∧
      image.routines.length = entryPoints.length := by
  intro compilation
  obtain ⟨program, context', hanalyse, hpreorder⟩ := root.exists_analyse_preorder hroot context
  obtain ⟨a, ha, -⟩ := (Function.Annotates.of_preorder hpreorder).attributes
  have hattributes : ∀ f ∈ program.preorder, ∃ a, f.attributes = .ok a := by
    intro f hf
    obtain ⟨g, hg⟩ := exists_rel_of_mem hpreorder f hf
    obtain ⟨a, ha, -⟩ := hg.attributes
    exact ⟨a, ha⟩
  obtain ⟨w, hprogram⟩ := exists_program_of_compiled hanalyse ha hcompiled
  rw [handed_eq hanalyse ha] at hcalls ⊢
  obtain ⟨-, -, hloads, hdecode, -, hidentities, -⟩ := Build.program_contents hcalls hprogram
  -- analysis comes first, and what it counted is still there when the unit is begun
  have hanalysed : context'.Tallies m.tree program.treeKeys := by
    have hbefore : context.Tallies m.tree [] := ⟨m, hmetrics, rfl, .empty hempty⟩
    have hafter := (Function.ends_analyse_tallies hroot hbefore).ok hanalyse
    rwa [List.append_nil] at hafter
  have hstart := (hanalysed.setTree program.treeSize).start "Emit"
  have hkeys : Metrics.constantsKey ∉ program.treeKeys := fun hmem =>
    absurd (Function.mem_treeKeys hmem) (by decide)
  obtain ⟨n, m', hm', hsize, hencode, rfl⟩ :=
    Build.program_accounts hcalls hprogram hstart hkeys
  refine ⟨m'.stop "Emit", w.image, ?_, hencode, hloads, hdecode, ?_, ?_, ?_⟩
  · rw [context_compile hanalyse ha hprogram, Context.measure, hm'.metrics_eq, Option.map_some]
  · rw [program_compile hanalyse ha]
    exact (hm'.describes hsize hencode hattributes).stop "Emit"
  · rw [program_compile hanalyse ha, hpreorder.length_eq]
  · rw [← hidentities, List.length_map]

/-- A program with a function that uses `eval` and another one of the same name. -/
def evalProgram : Function where
  form := .program
  functions := [{ name := "f", body := [.expr (.call (.name "eval") [])] }, { name := "f" }]

/-- Every function pools an empty list and returns an empty map. -/
def poolCalls (h : Handover) : List UnitRequest :=
  [.loadConstant h.id (.ints []), .loadConstant h.id (.map []),
    .onRoutine h.id (.emission .returnValue)]

/-- The compilation of a program with metrics that are empty before. -/
def evalCompilation : Compilation :=
  compile (.ofCalls poolCalls) "unit" evalProgram
    { options := { splitThreshold := 2 }, metrics := some {} }

theorem evalProgram_metrics :
    ∃ bytes entryPoints m image, evalCompilation.outcome = .compiled bytes entryPoints ∧
      evalCompilation.context.metrics = some m ∧ Image.decode bytes = .ok image ∧
      m.Describes evalCompilation.program image bytes ∧
      m.number? "analysis.functions" = some 3 ∧ m.number? "analysis.eval_functions" = some 1 ∧
      m.number? "emit.routines" = some 6 ∧ m.number? "emit.accessors" = some 3 := by
  have hnames : evalCompilation.outcome.entryPoints?.map List.length = some 6 := by decide +kernel
  obtain ⟨entryPoints, hentries, hlength⟩ := Option.map_eq_some_iff.mp hnames
  obtain ⟨bytes, hbytes⟩ := Outcome.exists_compiled hentries
  have hwork : ∀ h, ∀ r ∈ poolCalls h, r.IsWork := by
    intro h r hr
    obtain rfl | rfl | rfl : r = _ ∨ r = _ ∨ r = _ := by simpa [poolCalls] using hr
    all_goals trivial
  have htexts : ∀ h id c, .loadConstant id c ∈ poolCalls h → c.TextsFit := by
    intro h id c hc
    obtain ⟨-, rfl⟩ | ⟨-, rfl⟩ : id = h.id ∧ c = .ints [] ∨ id = h.id ∧ c = .map [] := by
      simpa [poolCalls] using hc
    · decide
    · decide
  have hthree : evalProgram.preorder.length = 3 := by decide +kernel
  have heval : evalCompilation.program.preorder.countP (Function.has (·.hasEval)) = 1 := by
    decide +kernel
  unfold evalCompilation at hbytes heval ⊢
  obtain ⟨m, image, hm, -, hloads, hdecode, hdescribes, hfunctions, hroutines⟩ :=
    compile_metrics rfl rfl rfl (fun h _ => ⟨rfl, hwork h⟩) hbytes
  have hread : Image.decode bytes = .ok image := hdecode.mpr fun c hc => by
    obtain ⟨h, -, id, hload⟩ := hloads c hc
    exact htexts h id c hload
  refine ⟨bytes, entryPoints, m, image, hbytes, hm, hread, hdescribes, ?_, ?_, ?_, ?_⟩
  · rw [hdescribes.functions, hfunctions, hthree]
  · rw [hdescribes.evalFunctions, heval]
    rfl
  · rw [hdescribes.routines, hroutines, hlength]
  · rw [hdescribes.accessors, hroutines, hfunctions, hlength, hthree]
    rfl

/-- A program without functions, which loads a text of 4294967296 zeros, is compiled. Its constant
is counted, but no unit can be read back from its bytes. -/
theorem metrics_compile_zeros :
    let lower := Lowering.ofCalls (textCalls (.zeros 4294967296))
    let compilation := compile lower "unit" { form := .program } { metrics := some {} }
    ∃ bytes entryPoints, compilation.outcome = .compiled bytes entryPoints ∧
      compilation.context.metrics.bind (·.number? "emit.constants") = some 1 ∧
      Image.decode bytes = .error (.format .trailingBytes) := by
  intro lower compilation
  have hentries : compilation.outcome.entryPoints? =
      some [(":program(O)O" : Text), ("$getString(I)T" : Text)] := by decide +kernel
  have hcounted : compilation.context.metrics.bind (·.number? "emit.constants") = some 1 := by
    decide +kernel
  have hsize : (lower.unit? "unit" { form := .program } { metrics := some {} }).map
      (·.pool.size) = some 1 := by decide +kernel
  have hmakes : ∀ h ∈ lower.handed "unit" { form := .program } { metrics := some {} },
      lower.Makes (textCalls (.zeros 4294967296)) h := fun h _ => ⟨rfl, isWork_of_mem_textCalls⟩
  obtain ⟨bytes, hbytes⟩ := Outcome.exists_compiled hentries
  exact ⟨bytes, _, hbytes, hcounted, decode_of_compile_zeros rfl hmakes constant_of_mem_textCalls
    hbytes hsize (by decide) (by decide)⟩

end Bytecode
