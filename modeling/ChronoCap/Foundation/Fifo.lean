/- module: ChronoCap/Foundation/Fifo
   scope: library
   digest: A queue as a machine: what a run puts in, takes out, and leaves. -/

import ChronoCap.Foundation.Machine
import Mathlib.Data.List.ReduceOption

set_option autoImplicit false
set_option relaxedAutoImplicit false

namespace ChronoCap.Foundation.Fifo

universe u

inductive Op (α : Type u) where
  | enqueue (a : α)
  | dequeue (a : α)
  /-- asked for an entry, without one -/
  | empty

variable {α : Type u}

def machine (α : Type u) : Machine (List α) (Op α) where
  Enabled q
    | .enqueue _ => True
    | .dequeue a => q.head? = some a
    | .empty => q = []
  next q
    | .enqueue a => q ++ [a]
    | .dequeue _ => q.tail
    | .empty => q

/-- What is answered to one who asks for an entry. -/
def Op.answer : Op α → List (Option α)
  | .enqueue _ => []
  | .dequeue a => [some a]
  | .empty => [none]

def Op.entered : Op α → List α
  | .enqueue a => [a]
  | _ => []

theorem run_enqueue (q xs : List α) :
    (machine α).Run Machine.Free q (xs.map .enqueue) (q ++ xs) := by
  induction xs generalizing q with
  | nil =>
      rw [List.append_nil]
      exact .nil
  | cons a xs ih =>
      have first : (machine α).Run Machine.Free q [.enqueue a] (q ++ [a]) :=
        Machine.Run.single (a := Op.enqueue a) trivial trivial
      have all := first.trans (ih (q ++ [a]))
      rwa [List.append_assoc] at all

theorem answer_enqueue (xs : List α) : (xs.map Op.enqueue).flatMap Op.answer = [] := by
  induction xs with
  | nil => rfl
  | cons a xs ih => exact ih

/-- First in, first out. -/
theorem run_contents {allowed : List α → Op α → Prop} {q r : List α} {ops : List (Op α)}
    (run : (machine α).Run allowed q ops r) :
    q ++ ops.flatMap Op.entered = (ops.flatMap Op.answer).reduceOption ++ r := by
  induction run with
  | nil => simp
  | @snoc ops r op _ enabled _ ih =>
      rw [List.flatMap_append, List.flatMap_append, List.reduceOption_append, ← List.append_assoc,
        ih]
      cases op with
      | enqueue a => simp [machine, Op.entered, Op.answer, List.reduceOption]
      | dequeue a =>
          obtain ⟨rest, rfl⟩ := List.head?_eq_some_iff.mp enabled
          simp [machine, Op.entered, Op.answer, List.reduceOption]
      | empty => simp [machine, Op.entered, Op.answer, List.reduceOption]

end ChronoCap.Foundation.Fifo
