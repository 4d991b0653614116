import Mathlib
import Bytecode.Proofs.Scope.Analysis

/-!
# Geometry and inner functions

The geometry of a function with the functions inside it is that of the function alone, with each
mention of an inner function replaced by the geometry of that function. A mention counts as one node
where inner functions are left out, so it is given back for each of them; depths are shifted to the
place of the mention. Nothing but the number of inner functions matters to the function alone.

## Main definitions

* `Mention`: a mentioned function, with the depth at which it stands
* `Function.mentions`: the mentions in the body of a function
* `Geometry.Expands`: what the mentioned functions add to a group of nodes
* `Function.splits?`: whether analysis finds a function too large for one segment

## Main results

* `Geometry.Expands.join`, `Geometry.Expands.node`: nodes are put together with and without the
  mentioned functions alike
* `Function.geometry_decomposes`: the geometry of a function from those of the functions it mentions
-/

namespace Bytecode

/-! ### Mentions -/

/-- A mentioned function, with the depth at which it stands. -/
structure Mention where
  function : Function
  depth : Nat

/-- The mention of a function by an expression or a statement at the given depth. The function is
one level further down. -/
def Mention.of (inner? : Option Nat → Option Function) (depth : Nat) (index : Option Nat) :
    List Mention :=
  (inner? index).toList.map fun f => ⟨f, depth + 1⟩

mutual

/-- The functions that an expression at the given depth mentions, in order. -/
def Expr.mentionsAt (inner? : Option Nat → Option Function) (depth : Nat) : Expr → List Mention
  | .absent => []
  | .name _ => []
  | .assign target value =>
    target.mentionsAt inner? (depth + 1) ++ value.mentionsAt inner? (depth + 1)
  | .call callee args =>
    callee.mentionsAt inner? (depth + 1) ++ exprMentions inner? (depth + 1) args
  | .function index => Mention.of inner? depth index
  | .string _ => []
  | .number _ => []
  | .binary _ lhs rhs => lhs.mentionsAt inner? (depth + 1) ++ rhs.mentionsAt inner? (depth + 1)

/-- The functions that expressions at the given depth mention, in order. -/
def exprMentions (inner? : Option Nat → Option Function) (depth : Nat) : List Expr → List Mention
  | [] => []
  | e :: rest => e.mentionsAt inner? depth ++ exprMentions inner? depth rest

end

mutual

/-- The functions that a statement at the given depth mentions, in order. -/
def Stmt.mentionsAt (inner? : Option Nat → Option Function) (depth : Nat) : Stmt → List Mention
  | .absent => []
  | .var _ init => init.mentionsAt inner? (depth + 1)
  | .function index => Mention.of inner? depth index
  | .expr value => value.mentionsAt inner? (depth + 1)
  | .ret value => value.mentionsAt inner? (depth + 1)
  | .cond test thenBody elseBody =>
    test.mentionsAt inner? (depth + 1) ++ stmtMentions inner? (depth + 1) thenBody ++
      stmtMentions inner? (depth + 1) elseBody
  | .withObject object body =>
    object.mentionsAt inner? (depth + 1) ++ stmtMentions inner? (depth + 1) body
  | .block body => stmtMentions inner? (depth + 1) body

/-- The functions that statements at the given depth mention, in order. -/
def stmtMentions (inner? : Option Nat → Option Function) (depth : Nat) : List Stmt → List Mention
  | [] => []
  | s :: rest => s.mentionsAt inner? depth ++ stmtMentions inner? depth rest

end

/-- The functions that the body of a function mentions, in order and as often as it does. -/
def Function.mentions (f : Function) : List Mention := stmtMentions f.inner? 1 f.body

/-! ### What mentioned functions add -/

/-- The largest of two rows of numbers, each with a number of its own. -/
theorem foldr_max_append (xs ys : List Nat) (x y : Nat) :
    (xs ++ ys).foldr max (max x y) = max (xs.foldr max x) (ys.foldr max y) := by
  induction xs with
  | nil =>
    induction ys with
    | nil => rfl
    | cons z ys ih =>
      simp only [List.nil_append, List.foldr_nil, List.foldr_cons] at ih ⊢
      omega
  | cons z xs ih =>
    simp only [List.cons_append, List.foldr_cons, ih]
    omega

/-- A function has at least the node of its own. -/
theorem Function.nodes_geometry_pos (f : Function) : 0 < f.geometry.nodes := by
  cases f
  simp [geometry, bodyGeometry, Geometry.node, Geometry.join, Geometry.leaf]

namespace Geometry

/-- A group of nodes at the given depth, with each mention one node in `own`, and with the mentioned
functions in `full`. -/
structure Expands (depth : Nat) (own full : Geometry) (mentions : List Mention) : Prop where
  nodes_eq : full.nodes + mentions.length =
    own.nodes + (mentions.map fun m => m.function.geometry.nodes).sum
  depth_eq : depth + full.depth =
    (mentions.map fun m => m.depth + m.function.geometry.depth).foldr max (depth + own.depth)
  /-- Both are empty at once. -/
  empty_iff : full.nodes = 0 ↔ own.nodes = 0
  mentions_eq : own.nodes = 0 → mentions = []

namespace Expands

variable {depth : Nat} {own full own' full' : Geometry} {mentions mentions' : List Mention}

theorem empty : Expands depth .empty .empty [] := ⟨rfl, rfl, Iff.rfl, fun _ => rfl⟩

theorem leaf : Expands depth .leaf .leaf [] := ⟨rfl, rfl, Iff.rfl, fun _ => rfl⟩

theorem join (h : Expands depth own full mentions) (h' : Expands depth own' full' mentions') :
    Expands depth (own.join own') (full.join full') (mentions ++ mentions') where
  nodes_eq := by
    have hnodes := h.nodes_eq
    have hnodes' := h'.nodes_eq
    simp only [Geometry.join, List.length_append, List.map_append, List.sum_append]
    omega
  depth_eq := by
    simp only [Geometry.join, List.map_append, ← Nat.add_max_add_left, foldr_max_append, h.depth_eq,
      h'.depth_eq]
  empty_iff := by
    have hempty := h.empty_iff
    have hempty' := h'.empty_iff
    simp only [Geometry.join]
    omega
  mentions_eq hnone := by
    simp only [Geometry.join, Nat.add_eq_zero_iff] at hnone
    rw [h.mentions_eq hnone.1, h'.mentions_eq hnone.2, List.append_nil]

/-- The children of a node are one level further down. -/
theorem node (h : Expands (depth + 1) own full mentions) :
    Expands depth own.node full.node mentions := by
  obtain ⟨hnodes, hdepth, hempty, hmentions⟩ := h
  have hsum : ∀ g : Geometry, g.node.nodes = 1 + g.nodes := by
    intro g
    by_cases hg : g.nodes = 0 <;> simp [Geometry.node, Geometry.join, below, hg, Geometry.leaf,
      Geometry.empty]
  refine ⟨by rw [hsum, hsum]; omega, ?_, by rw [hsum, hsum]; omega, fun hnone => ?_⟩
  · by_cases hnone : own.nodes = 0
    · -- a node without children stands alone
      simp [Geometry.node, Geometry.join, below, hempty.mpr hnone, hnone, hmentions hnone]
    · have hsome : full.nodes ≠ 0 := fun hfull => hnone (hempty.mp hfull)
      have hdeeper : ∀ g : Geometry, g.nodes ≠ 0 → depth + g.node.depth = depth + 1 + g.depth := by
        intro g hg
        simp only [Geometry.node, Geometry.join, below, hg, if_false, Geometry.leaf]
        omega
      rw [hdeeper full hsome, hdeeper own hnone]
      exact hdepth
  · rw [hsum] at hnone
    omega

end Expands

end Geometry

open Bytecode.Geometry

/-! ### Bodies -/

section Bodies

variable {inner? : Option Nat → Option Function} {own full : Option Nat → Geometry}
  {found found' : Geometry} {mentions : List Mention} {depth : Nat}

theorem expands_exprGeometry {es : List Expr} (hfound : Expands depth found found' mentions)
    (hes : ∀ e ∈ es, Expands depth (e.geometry own) (e.geometry full) (e.mentionsAt inner? depth)) :
    Expands depth (exprGeometry own found es) (exprGeometry full found' es)
      (mentions ++ exprMentions inner? depth es) := by
  induction es generalizing found found' mentions with
  | nil =>
    rw [exprMentions, List.append_nil]
    exact hfound
  | cons e es ih =>
    obtain ⟨he, hes⟩ := List.forall_mem_cons.mp hes
    rw [exprMentions, ← List.append_assoc]
    exact ih (hfound.join he) hes

theorem expands_stmtGeometry {body : List Stmt} (hfound : Expands depth found found' mentions)
    (hbody : ∀ s ∈ body,
      Expands depth (s.geometry own) (s.geometry full) (s.mentionsAt inner? depth)) :
    Expands depth (stmtGeometry own found body) (stmtGeometry full found' body)
      (mentions ++ stmtMentions inner? depth body) := by
  induction body generalizing found found' mentions with
  | nil =>
    rw [stmtMentions, List.append_nil]
    exact hfound
  | cons s body ih =>
    obtain ⟨hs, hbody⟩ := List.forall_mem_cons.mp hbody
    rw [stmtMentions, ← List.append_assoc]
    exact ih (hfound.join hs) hbody

variable (hmention : ∀ index depth,
  Expands depth (own index).below (full index).below (Mention.of inner? depth index))

include hmention

/-- An expression with the functions that it mentions. -/
theorem Expr.expands_geometry (e : Expr) :
    Expands depth (e.geometry own) (e.geometry full) (e.mentionsAt inner? depth) := by
  induction e using Expr.induct generalizing depth with
  | absent => exact .empty
  | name | string | number => exact .leaf
  | assign target value htarget hvalue => exact (htarget.join hvalue).node
  | binary op lhs rhs hlhs hrhs => exact (hlhs.join hrhs).node
  | call callee args hcallee hargs =>
    exact (expands_exprGeometry hcallee fun e he => hargs e he).node
  | function index => exact hmention index depth

/-- A statement with the functions that it mentions. -/
theorem Stmt.expands_geometry (s : Stmt) :
    Expands depth (s.geometry own) (s.geometry full) (s.mentionsAt inner? depth) := by
  induction s using Stmt.induct generalizing depth with
  | absent => exact .empty
  | var name init => exact (init.expands_geometry hmention).node
  | function index => exact hmention index depth
  | expr value | ret value => exact (value.expands_geometry hmention).node
  | cond test thenBody elseBody hthen helse =>
    -- the test and both bodies are at one place, and are joined in this order
    have htest : Expands (depth + 1) (test.geometry own) (test.geometry full) _ :=
      test.expands_geometry hmention
    have hfirst := expands_stmtGeometry htest fun s hs => hthen s hs
    exact (expands_stmtGeometry hfirst fun s hs => helse s hs).node
  | withObject object body hbody =>
    exact (expands_stmtGeometry (object.expands_geometry hmention) fun s hs => hbody s hs).node
  | block body hbody => exact (expands_stmtGeometry .empty fun s hs => hbody s hs).node

end Bodies

/-! ### Functions -/

namespace Function

theorem geometries_eq (found : Array Geometry) (functions : List Function) :
    geometries found functions = found ++ (functions.map geometry).toArray := by
  induction functions generalizing found with
  | nil => simp [geometries]
  | cons f functions ih => simp [geometries, ih]

theorem geometry_eq (f : Function) :
    f.geometry = bodyGeometry (mentioned (f.functions.map geometry).toArray) f.body := by
  cases f
  simp [geometry, geometries_eq]

/-- A function with the functions that it mentions. -/
theorem expands_geometry (f : Function) : Expands 0 f.ownGeometry f.geometry f.mentions := by
  rw [geometry_eq, ownGeometry, bodyGeometry, bodyGeometry]
  refine (expands_stmtGeometry .empty fun s _ => s.expands_geometry ?_).node
  intro index depth
  -- a mention is nothing, or a node in place of all nodes of the function
  have hinner : ∀ g : Function → Geometry, mentioned (f.functions.map g).toArray index =
      ((f.inner? index).map g).getD empty := by
    intro g
    cases index <;> simp [mentioned, inner?]
  rw [hinner, hinner, Mention.of]
  cases f.inner? index with
  | none => exact .empty
  | some g =>
    have hpos := g.nodes_geometry_pos
    constructor
    · simp [below, leaf, hpos.ne', Nat.add_comm]
    · simp [below, leaf, hpos.ne']
      omega
    · simp [below, leaf, hpos.ne']
    · simp [below, leaf]

/-- The functions inside matter to the function alone only by their number. -/
theorem ownGeometry_congr {f g : Function} (hbody : g.body = f.body)
    (hcount : g.functions.length = f.functions.length) : g.ownGeometry = f.ownGeometry := by
  simp only [ownGeometry, List.map_const', hbody, hcount]

/-- Whether analysis of a tree finds the function at a path too large for one segment. -/
def splits? (root : Function) (context : Context) (path : List Nat) : Option Bool :=
  (root.analyse.run' context).bind fun program =>
    (program.at? path).bind fun f => f.facts.map fun facts => facts.attributes.isSplit

/-- A function is split by the number of its own nodes. -/
theorem splits?_eq {root f : Function} {context : Context} {path : List Nat}
    (hroot : root.facts = none) (hf : root.at? path = some f) :
    root.splits? context path =
      some (decide (context.options.splitThreshold < f.ownGeometry.nodes)) := by
  obtain ⟨context', hanalyse⟩ := root.exists_analyse hroot context
  simp only [splits?, EStateM.run', EStateM.run, hanalyse, Option.bind_some, at?_annotated hf,
    facts_annotated, Option.map_some]
  rfl

/-- **The geometry of a function decomposes over the functions it mentions.** With inner functions
there are as many nodes as without them and in each mentioned function, less one for each mention;
and the deepest node is the deepest one of the function alone, or of a mentioned function at its
place. The function alone depends on the functions inside only by their number, and so does whether
analysis splits it, wherever it stands in a tree. -/
theorem geometry_decomposes (f : Function) :
    f.geometry.nodes + f.mentions.length =
        f.ownGeometry.nodes + (f.mentions.map fun m => m.function.geometry.nodes).sum ∧
      f.geometry.depth =
        (f.mentions.map fun m => m.depth + m.function.geometry.depth).foldr max
          f.ownGeometry.depth ∧
      ∀ g : Function, g.body = f.body → g.functions.length = f.functions.length →
        g.ownGeometry = f.ownGeometry ∧
        ∀ (root root' : Function) (path path' : List Nat) (context context' : Context),
          root.facts = none → root'.facts = none → root.at? path = some f →
          root'.at? path' = some g →
          context'.options.splitThreshold = context.options.splitThreshold →
          (root.splits? context path).isSome ∧
            root'.splits? context' path' = root.splits? context path := by
  obtain ⟨hnodes, hdepth, -, -⟩ := f.expands_geometry
  rw [Nat.zero_add, Nat.zero_add] at hdepth
  refine ⟨hnodes, hdepth, fun g hbody hcount => ?_⟩
  have hown := ownGeometry_congr hbody hcount
  refine ⟨hown, ?_⟩
  intro root root' path path' context context' hroot hroot' hf hg hthreshold
  rw [splits?_eq hroot hf, splits?_eq hroot' hg, hown, hthreshold]
  exact ⟨rfl, rfl⟩

/-- A function that mentions the function inside it twice, in an argument and in a block. -/
def nestedMentions : Function where
  functions := [{ body := [.ret (.name "x")] }]
  body := [.expr (.call (.name "f") [.function (some 0), .function none]),
    .block [.block [.function (some 0)]]]

theorem nestedMentions_decomposes :
    nestedMentions.mentions.map Mention.depth = [4, 4] ∧
      nestedMentions.ownGeometry = ⟨8, 4⟩ ∧
      nestedMentions.geometry.nodes + 2 = 8 + (3 + 3) ∧
      nestedMentions.geometry.depth = max (4 + 2) (max (4 + 2) 4) ∧
      ({ nestedMentions with functions := [{}] } : Function).ownGeometry = ⟨8, 4⟩ := by
  obtain ⟨hnodes, hdepth, hother⟩ := geometry_decomposes nestedMentions
  refine ⟨by decide, by decide, hnodes.trans (by decide), hdepth.trans (by decide), ?_⟩
  exact (hother _ rfl rfl).1.trans (by decide)

end Function

end Bytecode
