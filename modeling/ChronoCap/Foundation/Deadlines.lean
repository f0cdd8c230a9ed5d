/- module: ChronoCap/Foundation/Deadlines
   scope: library
   digest: Tasks done one after the other, each not before its deadline: when they start. -/

import Mathlib.Algebra.Order.Monoid.Defs
import Mathlib.Data.List.Forall2
import Mathlib.Tactic.Abel
import Mathlib.Tactic.GCongr

set_option autoImplicit false
set_option relaxedAutoImplicit false

namespace ChronoCap.Foundation.Deadlines

universe u

variable {T : Type u} [AddCommMonoid T] [LinearOrder T]

/-- A sleep until an absolute deadline, entered at one time and left at another. What interrupts it
comes before it is over, and it is entered again with the same deadline. -/
inductive Sleeps (jitter due : T) : T → T → Prop where
  | wakes {c t : T} (notBefore : max c due ≤ t) (soon : t ≤ max c due + jitter) :
      Sleeps jitter due c t
  | interrupted {c t c' : T} (later : c ≤ t) (early : t ≤ max c due)
      (again : Sleeps jitter due t c') : Sleeps jitter due c c'

/-- Tasks with deadlines, done one after the other from a time on, and when each of them starts. -/
inductive Keeps (jitter work : T) : T → List T → List T → Prop where
  | done (c : T) : Keeps jitter work c [] []
  | next {c d t c' : T} {ds ts : List T} (notBefore : max c d ≤ t) (soon : t ≤ max c d + jitter)
      (ends : t ≤ c') (brief : c' ≤ t + work) (rest : Keeps jitter work c' ds ts) :
      Keeps jitter work c (d :: ds) (t :: ts)

variable {jitter work due c c' : T} {ds ts : List T}

/-- Interruptions make no sleep longer, however many they are. -/
theorem Sleeps.bounds (sleeps : Sleeps jitter due c c') :
    max c due ≤ c' ∧ c' ≤ max c due + jitter := by
  induction sleeps with
  | wakes notBefore soon => exact ⟨notBefore, soon⟩
  | @interrupted c t c' later early _ ih =>
      have same : max t due = max c due := by
        apply le_antisymm
        · exact max_le early (le_max_right _ _)
        · exact max_le_max_right due later
      rwa [same] at ih

/-- No task starts before its deadline. -/
theorem Keeps.notBefore (keeps : Keeps jitter work c ds ts) : List.Forall₂ (· ≤ ·) ds ts := by
  induction keeps with
  | done => exact .nil
  | next notBefore _ _ _ _ ih => exact .cons ((le_max_right _ _).trans notBefore) ih

theorem Keeps.after (keeps : Keeps jitter work c ds ts) : ∀ t ∈ ts, c ≤ t := by
  induction keeps with
  | done => exact fun _ none => absurd none List.not_mem_nil
  | next notBefore _ ends _ _ ih =>
      have first := (le_max_left _ _).trans notBefore
      intro t ht
      rcases List.mem_cons.mp ht with rfl | later
      · exact first
      · exact (first.trans ends).trans (ih t later)

theorem Keeps.sorted (keeps : Keeps jitter work c ds ts) : ts.Pairwise (· ≤ ·) := by
  induction keeps with
  | done => exact .nil
  | next _ _ ends _ rest ih =>
      exact .cons (fun t ht => ends.trans (rest.after t ht)) ih

/-- How late a task is: no later than if the tasks from some deadline on, or from the start on, had
been done without a pause. What was late before that is made up for. -/
theorem Keeps.backlog [IsOrderedAddMonoid T] (keeps : Keeps jitter work c ds ts) {i : Nat} {t : T}
    (started : ts[i]? = some t) :
    t ≤ c + i • (work + jitter) + jitter ∨
      ∃ k ≤ i, ∃ d, ds[k]? = some d ∧ t ≤ d + (i - k) • (work + jitter) + jitter := by
  induction keeps generalizing i t with
  | done => contradiction
  | @next c d u c' ds ts notBefore soon ends brief rest ih =>
      cases i with
      | zero =>
          obtain rfl : u = t := Option.some.inj started
          rcases max_cases c d with ⟨eq, -⟩ | ⟨eq, -⟩
          · left
            simpa [eq] using soon
          · exact .inr ⟨0, Nat.le_refl _, d, rfl, by simpa [eq] using soon⟩
      | succ n =>
          rcases ih started with busy | ⟨k, le, e, deadline, bound⟩
          · -- no pause since this task
            have chain : t ≤ max c d + (n + 1) • (work + jitter) + jitter := by
              calc t ≤ c' + n • (work + jitter) + jitter := busy
                _ ≤ max c d + jitter + work + n • (work + jitter) + jitter := by
                  gcongr
                  exact brief.trans (by gcongr)
                _ = max c d + (n + 1) • (work + jitter) + jitter := by
                  rw [succ_nsmul]
                  abel
            rcases max_cases c d with ⟨eq, -⟩ | ⟨eq, -⟩
            · left
              rwa [eq] at chain
            · right
              rw [eq] at chain
              exact ⟨0, Nat.zero_le _, d, rfl, chain⟩
          · right
            refine ⟨k + 1, Nat.succ_le_succ le, e, deadline, ?_⟩
            rwa [Nat.add_sub_add_right]

end ChronoCap.Foundation.Deadlines
