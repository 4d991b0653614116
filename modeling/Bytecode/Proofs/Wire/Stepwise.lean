import Mathlib
import Bytecode.Proofs.Wire.Taking

/-!
# Reads step by step

Every read is put together from a few single steps: bytes are taken, the reader is looked at, and
the input is refused with a fault of the format. Taking is the only step that moves the reader, and
it is refused where bytes are missing. So what one taking keeps holds at every point of every run,
and nothing is ever refused for another reason than the input.

## Main definitions

* `Read.Stepwise`: a read that is put together from single steps
* `Read.Throughout P read r`: `P` holds before and after every step of the run of `read` from `r`
* `Reader.In bytes`: a reader inside an input

## Main results

* `Read.Stepwise.throughout`: what one taking keeps holds throughout
* `Read.Stepwise.exists_fault`: a read fails because of its input only
* `Read.Stepwise.inside`: a reader never leaves its input
-/

namespace Bytecode

/-- The reader stands inside `bytes`, or at their end, with the rest of them to come. -/
structure Reader.In (bytes : Bytes) (r : Reader) : Prop where
  pos_le : r.pos ≤ bytes.length
  rest_eq : r.rest = bytes.drop r.pos

theorem Reader.in_ofBytes (bytes : Bytes) : (ofBytes bytes).In bytes :=
  ⟨Nat.zero_le _, rfl⟩

namespace Read

/-- A read that is put together from single steps. -/
inductive Stepwise : {α : Type} → Read α → Prop
  | pure {α : Type} (x : α) : Stepwise (Pure.pure x)
  | fault {α : Type} (fault : FormatFault) : Stepwise (throw (.format fault) : Read α)
  | look : Stepwise MonadState.get
  | take (n : Nat) : Stepwise (take n)
  | bind {α β : Type} {read : Read α} {next : α → Read β} (h : Stepwise read)
      (hnext : ∀ x, Stepwise (next x)) : Stepwise (read >>= next)

/-- `P` holds of the reader at every point of the run of a read: before its first step, between two
of them, and after the last one, whether the read gives a value or fails. -/
inductive Throughout (P : Reader → Prop) : {α : Type} → Read α → Reader → Prop
  | pure {α : Type} {x : α} {r : Reader} (h : P r) : Throughout P (Pure.pure x) r
  | fault {α : Type} {fault : FormatFault} {r : Reader} (h : P r) :
      Throughout P (throw (.format fault) : Read α) r
  | look {r : Reader} (h : P r) : Throughout P MonadState.get r
  | take {n : Nat} {r : Reader} (h : P r) (htake : ∀ bytes r', take n r = .ok bytes r' → P r') :
      Throughout P (take n) r
  | bind {α β : Type} {read : Read α} {next : α → Read β} {r : Reader} (h : Throughout P read r)
      (hnext : ∀ x r', read r = .ok x r' → Throughout P (next x) r') :
      Throughout P (read >>= next) r

variable {α β : Type} {P : Reader → Prop} {read : Read α} {r r' : Reader}

/-- What holds throughout a run holds of the reader that it leaves behind. -/
theorem Throughout.ends (h : Throughout P read r) :
    Ends read r (fun _ r' => P r') (fun _ r' => P r') := by
  induction h with
  | pure h => exact h
  | fault h => exact h
  | look h => exact h
  | @take n r h htake =>
    cases hm : Read.take n r with
    | ok bytes r' => exact Ends.of_ok hm (htake bytes r' hm)
    | error e r' =>
      -- a taking that is refused leaves the reader where it was
      unfold Read.take at hm
      split at hm
      · cases hm
        exact Ends.of_error (by rw [Read.take, if_pos ‹_›]) h
      · cases hm
  | @bind α β read next r h hnext ih ihnext =>
    refine Ends.bind (((Ends.self read r).and ih).mono ?_ ?_)
    · rintro x t ⟨hx, -⟩
      exact ihnext x t hx
    · rintro e t ⟨-, ht⟩
      exact ht

namespace Stepwise

theorem map (f : α → β) (h : Stepwise read) : Stepwise (f <$> read) := by
  rw [← bind_pure_comp]
  exact .bind h fun x => .pure (f x)

/-- What one taking keeps holds throughout. -/
theorem throughout (h : Stepwise read)
    (htake : ∀ n r bytes r', P r → Read.take n r = .ok bytes r' → P r') (hr : P r) :
    Throughout P read r := by
  induction h generalizing r with
  | pure x => exact .pure hr
  | fault f => exact .fault hr
  | look => exact .look hr
  | take n => exact .take hr fun bytes r' hm => htake n r bytes r' hr hm
  | bind h hnext ih ihnext =>
    refine .bind (ih hr) fun x r' hx => ihnext x ?_
    exact (ih hr).ends.ok hx

theorem ends (h : Stepwise read) (r : Reader) :
    Ends read r (fun _ _ => True) fun e _ => ∃ fault, e = .format fault := by
  induction h generalizing r with
  | pure x => exact trivial
  | fault f => exact ⟨f, rfl⟩
  | look => exact trivial
  | take n =>
    unfold Read.take Ends
    dsimp only
    split_ifs
    · exact ⟨_, rfl⟩
    · trivial
  | bind h hnext ih ihnext => exact Ends.next (ih r) fun x t _ => ihnext x t

/-- **A read fails because of its input only.** -/
theorem exists_fault (h : Stepwise read) {e : Error} (he : read r = .error e r') :
    ∃ fault, e = .format fault :=
  (h.ends r).error he

theorem in_of_take {n : Nat} {bytes taken : Bytes} (hr : r.In bytes)
    (h : Read.take n r = .ok taken r') : r'.In bytes := by
  obtain ⟨htook, rfl⟩ := took_take h
  have hlength : bytes.length - r.pos = taken.length + r'.rest.length := by
    rw [← List.length_drop, ← hr.rest_eq, htook.rest_eq, List.length_append]
  have hpos := hr.pos_le
  constructor
  · rw [htook.pos_eq]
    omega
  · rw [htook.pos_eq, ← List.drop_drop, ← hr.rest_eq, htook.rest_eq, List.drop_left]

/-- **A reader never leaves its input**, on no run of any read that is put together from single
steps. -/
theorem inside {bytes : Bytes} (h : Stepwise read) (hr : r.In bytes) :
    Throughout (Reader.In bytes) read r :=
  h.throughout (fun _ _ _ _ hr hm => in_of_take hr hm) hr

end Stepwise

/-! ## Words, names and lists -/

theorem stepwise_word (width : Nat) : Stepwise (word width) := .map _ (.take width)

theorem stepwise_u8 : Stepwise u8 := .map _ (stepwise_word 1)

theorem stepwise_u16 : Stepwise u16 := .map _ (stepwise_word 2)

theorem stepwise_u32 : Stepwise u32 := .map _ (stepwise_word 4)

theorem stepwise_u64 : Stepwise u64 :=
  .bind (stepwise_word 4) fun _ => .bind (stepwise_word 4) fun _ => .pure _

theorem stepwise_i32 : Stepwise i32 := .map _ stepwise_u32

theorem stepwise_i64 : Stepwise i64 := .map _ stepwise_u64

theorem stepwise_number : Stepwise number := .map _ stepwise_u64

theorem stepwise_name : Stepwise name := .bind stepwise_u16 fun _ => .take _

theorem stepwise_collectFrom (h : Stepwise read) (n : Nat) (done : List α) :
    Stepwise (collectFrom read n done) := by
  induction n generalizing done with
  | zero => exact .pure _
  | succ n ih => exact .bind h fun x => ih (x :: done)

theorem stepwise_collect (h : Stepwise read) (n : Nat) : Stepwise (collect n read) :=
  stepwise_collectFrom h n []

end Read

end Bytecode
