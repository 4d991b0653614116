import Mathlib

/-!
# Outcomes of steps

Reading, assembly, construction and analysis are made of steps that give a value or fail, and that
leave a state behind in both cases. `Ends m s post fail` says how the step `m` may end from the
state `s`. Steps are taken apart with one rule for each way in which they are put together, so a
composite step is never unfolded into a run. The tables in a state only grow, so that what a step
has found in one of them is still there after the next.

## Main definitions

* `Ends m s post fail`: a value is given in `post`, a failure leaves `fail`
* `leaves m s`: the state that a step leaves behind, whichever way it ends
* `Succeeds x`: the pure step `x` gives a value

## Main results

* `Ends.bind`, `Ends.next`: one step after another
* `Ends.forM`: a step for each item of a list, by an invariant
* `getElem?_of_prefix`: an index into a table that only grows keeps its meaning
* `getElem?_of_forall₂`: entries of two tables that go together
* `index_eq_iff_of_nodup`: indices and entries of a table without repetition
-/

namespace Bytecode

variable {ε σ α β : Type}

/-- The step `m` from `s` ends in `post` when it gives a value and in `fail` when it does not. -/
def Ends (m : EStateM ε σ α) (s : σ) (post : α → σ → Prop) (fail : ε → σ → Prop) : Prop :=
  match m s with
  | .ok x t => post x t
  | .error e t => fail e t

/-- The state that a step leaves behind, whichever way it ends. -/
def leaves (m : EStateM ε σ α) (s : σ) : σ :=
  match m s with
  | .ok _ t => t
  | .error _ t => t

/-- A step that gave a value left a state behind. -/
theorem exists_of_run' {m : EStateM ε σ α} {s : σ} {x : α} (h : m.run' s = some x) :
    ∃ t, m s = .ok x t := by
  unfold EStateM.run' at h
  split at h
  · next t hm =>
    cases h
    exact ⟨t, hm⟩
  · cases h

/-- A step that gave no value left a state behind, too. -/
theorem exists_of_run'_eq_none {m : EStateM ε σ α} {s : σ} (h : m.run' s = none) :
    ∃ e t, m s = .error e t := by
  unfold EStateM.run' at h
  split at h
  · cases h
  · next e t hm => exact ⟨e, t, hm⟩

/-- Both of two steps gave a value when the second one did. -/
theorem exists_of_bind_ok {m : EStateM ε σ α} {f : α → EStateM ε σ β} {s t : σ} {y : β}
    (h : (m >>= f) s = .ok y t) : ∃ x s', m s = .ok x s' ∧ f x s' = .ok y t := by
  cases hm : m s with
  | ok x s' => exact ⟨x, s', rfl, by simpa only [bind, EStateM.bind, hm] using h⟩
  | error e s' => simp [bind, EStateM.bind, hm] at h

section Pure

variable {x : Except ε α} {f : α → Except ε β} {y : β}

/-- Both of two pure steps gave a value when the second one did. -/
theorem exists_of_except_bind (h : (x >>= f) = .ok y) : ∃ a, x = .ok a ∧ f a = .ok y := by
  cases x with
  | ok a => exact ⟨a, rfl, h⟩
  | error e => cases h

/-- A pure step for each item of a list gave a value when all of them did. -/
theorem forall₂_of_mapM {xs : List α} {ys : List β} (h : xs.mapM f = .ok ys) :
    List.Forall₂ (fun x y => f x = .ok y) xs ys := by
  induction xs generalizing ys with
  | nil =>
    cases h
    exact .nil
  | cons x xs ih =>
    rw [List.mapM_cons] at h
    obtain ⟨y, hx, h⟩ := exists_of_except_bind h
    obtain ⟨ys, hxs, h⟩ := exists_of_except_bind h
    cases h
    exact .cons hx (ih hxs)

/-- A pure step for each item of a list gives what the single steps give. -/
theorem mapM_eq_ok {xs : List α} {ys : List β} (h : List.Forall₂ (fun x y => f x = .ok y) xs ys) :
    xs.mapM f = .ok ys := by
  induction h with
  | nil => rfl
  | cons hx hxs ih =>
    rw [List.mapM_cons, hx, ih]
    rfl

/-- Two pure steps fail when one of them does. -/
theorem error_of_except_bind {e : ε} (h : (x >>= f) = .error e) :
    x = .error e ∨ ∃ a, x = .ok a ∧ f a = .error e := by
  cases x with
  | ok a => exact .inr ⟨a, rfl, h⟩
  | error e' =>
    cases h
    exact .inl rfl

/-- A pure step for each item of a list fails as one of them does. -/
theorem exists_error_of_mapM {xs : List α} {e : ε} (h : xs.mapM f = .error e) :
    ∃ a ∈ xs, f a = .error e := by
  induction xs with
  | nil => cases h
  | cons x xs ih =>
    rw [List.mapM_cons] at h
    rcases error_of_except_bind h with hx | ⟨y, -, h⟩
    · exact ⟨x, List.mem_cons_self, hx⟩
    · rcases error_of_except_bind h with hxs | ⟨ys, -, h⟩
      · obtain ⟨a, ha, hfa⟩ := ih hxs
        exact ⟨a, List.mem_cons_of_mem x ha, hfa⟩
      · cases h

/-- A pure step gives a value. -/
def Succeeds (x : Except ε α) : Prop := ∃ y, x = .ok y

theorem eq_ok_of_toOption {a : α} (h : x.toOption = some a) : x = .ok a := by
  cases x with
  | ok b => exact congrArg Except.ok (Option.some.inj h)
  | error e => cases h

theorem exists_error_iff : (∃ e, x = .error e) ↔ ¬ Succeeds x := by
  cases x with
  | ok y => simp [Succeeds]
  | error e => simp [Succeeds]

/-- Two pure steps give a value when both do. The value of the first one decides what the second
one does, but here not whether it gives a value. -/
theorem succeeds_bind {P : Prop} (hf : ∀ a, Succeeds (f a) ↔ P) :
    Succeeds (x >>= f) ↔ Succeeds x ∧ P := by
  constructor
  · rintro ⟨y, h⟩
    obtain ⟨a, hx, ha⟩ := exists_of_except_bind h
    exact ⟨⟨a, hx⟩, (hf a).mp ⟨y, ha⟩⟩
  · rintro ⟨⟨a, rfl⟩, hP⟩
    exact (hf a).mpr hP

/-- A last step that cannot fail. -/
theorem succeeds_bind_pure {g : α → β} : Succeeds (x >>= fun a => pure (g a)) ↔ Succeeds x := by
  have hpure : ∀ a, Succeeds (pure (g a) : Except ε β) ↔ True := fun a =>
    iff_true_intro ⟨g a, rfl⟩
  rw [succeeds_bind hpure, and_true]

/-- A pure step for each item of a list gives a value when all of them do. -/
theorem succeeds_mapM {xs : List α} : Succeeds (xs.mapM f) ↔ ∀ a ∈ xs, Succeeds (f a) := by
  induction xs with
  | nil => exact iff_of_true ⟨[], rfl⟩ (by simp)
  | cons a xs ih =>
    rw [List.mapM_cons, succeeds_bind fun _ => succeeds_bind_pure.trans ih, List.forall_mem_cons]

end Pure

namespace Ends

variable {m : EStateM ε σ α} {s t : σ} {post post' : α → σ → Prop} {fail fail' : ε → σ → Prop}

theorem ok {x : α} (h : Ends m s post fail) (hm : m s = .ok x t) : post x t := by
  simpa only [Ends, hm] using h

theorem error {e : ε} (h : Ends m s post fail) (hm : m s = .error e t) : fail e t := by
  simpa only [Ends, hm] using h

theorem of_ok {x : α} (hm : m s = .ok x t) (h : post x t) : Ends m s post fail := by
  simpa only [Ends, hm] using h

theorem of_error {e : ε} (hm : m s = .error e t) (h : fail e t) : Ends m s post fail := by
  simpa only [Ends, hm] using h

theorem mono (h : Ends m s post fail) (hpost : ∀ x t, post x t → post' x t)
    (hfail : ∀ e t, fail e t → fail' e t) : Ends m s post' fail' := by
  cases hm : m s with
  | ok x t => exact of_ok hm (hpost x t (h.ok hm))
  | error e t => exact of_error hm (hfail e t (h.error hm))

theorem and (h : Ends m s post fail) (h' : Ends m s post' fail') :
    Ends m s (fun x t => post x t ∧ post' x t) (fun e t => fail e t ∧ fail' e t) := by
  cases hm : m s with
  | ok x t => exact of_ok hm ⟨h.ok hm, h'.ok hm⟩
  | error e t => exact of_error hm ⟨h.error hm, h'.error hm⟩

/-- What holds either way holds of the state left behind. -/
theorem leaves {P : σ → Prop} (h : Ends m s (fun _ => P) (fun _ => P)) : P (leaves m s) := by
  unfold Bytecode.leaves
  cases hm : m s with
  | ok x t => exact h.ok hm
  | error e t => exact h.error hm

/-- A step ends as it does. -/
theorem self (m : EStateM ε σ α) (s : σ) :
    Ends m s (fun x t => m s = .ok x t) fun e t => m s = .error e t := by
  cases hm : m s with
  | ok x t => exact of_ok hm rfl
  | error e t => exact of_error hm rfl

theorem pure {x : α} (h : post x s) : Ends (Pure.pure x) s post fail := h

/-- One step after another: what the first one leaves is where the second one starts. -/
theorem bind {f : α → EStateM ε σ β} {post : β → σ → Prop}
    (h : Ends m s (fun x t => Ends (f x) t post fail) fail) : Ends (m >>= f) s post fail := by
  cases hm : m s with
  | ok x t =>
    have hf : Ends (f x) t post fail := h.ok hm
    simpa only [Ends, Bind.bind, EStateM.bind, hm] using hf
  | error e t =>
    have he : fail e t := h.error hm
    simpa only [Ends, Bind.bind, EStateM.bind, hm] using he

/-- One step after another, when both fail alike. -/
theorem next {f : α → EStateM ε σ β} {post' : β → σ → Prop} (h : Ends m s post fail)
    (hf : ∀ x t, post x t → Ends (f x) t post' fail) : Ends (m >>= f) s post' fail :=
  bind (h.mono hf fun _ _ he => he)

/-- How two steps end says how the second one ends after the first one. -/
theorem of_bind_ok {f : α → EStateM ε σ β} {post : β → σ → Prop} {x : α}
    (h : Ends (m >>= f) s post fail) (hm : m s = .ok x t) : Ends (f x) t post fail := by
  simpa only [Ends, Bind.bind, EStateM.bind, hm] using h

/-- Two steps fail when the first one does. -/
theorem of_bind_error {f : α → EStateM ε σ β} {post : β → σ → Prop} {e : ε}
    (h : Ends (m >>= f) s post fail) (hm : m s = .error e t) : fail e t := by
  simpa only [Ends, Bind.bind, EStateM.bind, hm] using h

theorem map {f : α → β} {post : β → σ → Prop} (h : Ends m s (fun x => post (f x)) fail) :
    Ends (f <$> m) s post fail := by
  cases hm : m s with
  | ok x t => simpa only [Ends, Functor.map, EStateM.map, hm] using h.ok hm
  | error e t => simpa only [Ends, Functor.map, EStateM.map, hm] using h.error hm

theorem throw {e : ε} (h : fail e s) : Ends (throw e : EStateM ε σ α) s post fail := h

theorem get {post : σ → σ → Prop} (h : post s s) :
    Ends (MonadState.get : EStateM ε σ σ) s post fail := h

theorem modify {f : σ → σ} {post : PUnit → σ → Prop} (h : post ⟨⟩ (f s)) :
    Ends (modify f : EStateM ε σ PUnit) s post fail := h

/-- A step for each item of a list keeps what every one of them keeps, and fails as they do. -/
theorem forM {P F : σ → Prop} {f : α → EStateM ε σ PUnit} {items : List α}
    (hf : ∀ x ∈ items, ∀ s, P s → Ends (f x) s (fun _ => P) (fun _ => F)) (hs : P s) :
    Ends (items.forM f) s (fun _ => P) (fun _ => F) := by
  induction items generalizing s with
  | nil => exact hs
  | cons x rest ih =>
    refine Ends.bind ((hf x List.mem_cons_self s hs).mono (fun _ t ht => ?_) fun _ _ ht => ht)
    exact ih (fun y hy => hf y (List.mem_cons_of_mem x hy)) ht

end Ends

/-- An index into a table that only grows keeps its meaning. -/
theorem getElem?_of_prefix {xs ys : List α} {i : Nat} {x : α} (h : xs <+: ys)
    (hx : xs[i]? = some x) : ys[i]? = some x := by
  obtain ⟨more, rfl⟩ := h
  rw [List.getElem?_append_left (List.getElem?_eq_some_iff.mp hx).1, hx]

/-- Whatever stands in the second of two related lists is related to something in the first one. -/
theorem exists_rel_of_mem {R : α → β → Prop} {xs : List α} {ys : List β}
    (h : List.Forall₂ R xs ys) : ∀ y ∈ ys, ∃ x, R x y := by
  induction h with
  | nil =>
    intro y hy
    cases hy
  | cons hxy _ ih =>
    intro y hy
    rcases List.mem_cons.mp hy with rfl | hy
    · exact ⟨_, hxy⟩
    · exact ih y hy

/-- Entries at the same index of two tables that go together. -/
theorem getElem?_of_forall₂ {R : α → β → Prop} {xs : List α} {ys : List β} {i : Nat} {x : α}
    (h : List.Forall₂ R xs ys) (hx : xs[i]? = some x) : ∃ y, ys[i]? = some y ∧ R x y := by
  induction h generalizing i with
  | nil => cases hx
  | cons hxy hrest ih =>
    cases i with
    | zero =>
      obtain rfl := Option.some.inj hx
      exact ⟨_, rfl, hxy⟩
    | succ i => exact ih hx

/-- In a table without repetition an index stands for one entry, and an entry has one index. -/
theorem index_eq_iff_of_nodup {xs : List α} {i j : Nat} {x y : α} (hxs : xs.Nodup)
    (hi : xs[i]? = some x) (hj : xs[j]? = some y) : i = j ↔ x = y := by
  rw [← List.getElem?_inj (List.getElem?_eq_some_iff.mp hi).1 hxs, hi, hj, Option.some.injEq]

end Bytecode
