/- module: ChronoCap/Foundation/Loop
   scope: library
   digest: While loops whose body ends them or goes on: states visited, invariants, termination. -/

import Mathlib.Data.Nat.Init

set_option autoImplicit false
set_option relaxedAutoImplicit false

namespace ChronoCap.Foundation.Loop

universe u v

variable {σ : Type u} {ω : Type v} (body : σ → ω ⊕ σ)

/-- The states a loop is in before one of its rounds. -/
inductive Visits (s : σ) : σ → Prop where
  | start : Visits s s
  | again {t u : σ} (before : Visits s t) (round : body t = .inr u) : Visits s u

/-- The loop for at most `fuel` rounds, with the state its last round began in; `none` is a loop
that has not ended by then. -/
def iterate : (fuel : Nat) → σ → Option (ω × σ)
  | 0, _ => none
  | fuel + 1, s =>
      match body s with
      | .inl result => some (result, s)
      | .inr t => iterate fuel t

variable {body} {s t u : σ}

theorem Visits.invariant {Inv : σ → Prop} (visits : Visits body s t) (start : Inv s)
    (round : ∀ t u, Inv t → body t = .inr u → Inv u) : Inv t := by
  induction visits with
  | start => exact start
  | again _ step ih => exact round _ _ ih step

theorem Visits.trans (first : Visits body s t) (second : Visits body t u) : Visits body s u := by
  induction second with
  | start => exact first
  | again _ step ih => exact ih.again step

/-- What ends a loop is its body, in a state the loop gets to. -/
theorem visits_of_iterate {fuel : Nat} {result : ω}
    (ended : iterate body fuel s = some (result, t)) :
    Visits body s t ∧ body t = .inl result := by
  induction fuel generalizing s with
  | zero => contradiction
  | succ fuel ih =>
      rw [iterate] at ended
      split at ended
      · rename_i result' last
        cases ended
        exact ⟨.start, last⟩
      · rename_i u step
        obtain ⟨rest, last⟩ := ih ended
        exact ⟨(Visits.start.again step).trans rest, last⟩

/-- A measure that every round lowers bounds the number of rounds. -/
theorem iterate_ends {Inv : σ → Prop} (measure : σ → Nat)
    (round : ∀ t u, Inv t → body t = .inr u → Inv u ∧ measure u < measure t) (fuel : Nat)
    (start : Inv s) (enough : measure s < fuel) :
    ∃ result t, iterate body fuel s = some (result, t) := by
  induction fuel generalizing s with
  | zero => omega
  | succ fuel ih =>
      rw [iterate]
      split
      · exact ⟨_, _, rfl⟩
      · rename_i u step
        obtain ⟨next, lower⟩ := round s u start step
        exact ih next (by omega)

/-- Two loops in lockstep: from related states both end alike, or both go on to related states. -/
structure Lockstep {τ : Type*} (R : σ → τ → Prop) (body : σ → ω ⊕ σ) (body' : τ → ω ⊕ τ) :
    Prop where
  ends : ∀ s t result, R s t → body s = .inl result → body' t = .inl result
  goesOn : ∀ s t s', R s t → body s = .inr s' → ∃ t', body' t = .inr t' ∧ R s' t'

section Lockstep

variable {τ : Type*} {R : σ → τ → Prop} {body' : τ → ω ⊕ τ}

theorem Lockstep.iterate_some (lockstep : Lockstep R body body') {fuel : Nat} {s s' : σ} {t : τ}
    {result : ω} (related : R s t) (ended : iterate body fuel s = some (result, s')) :
    ∃ t', iterate body' fuel t = some (result, t') ∧ R s' t' := by
  induction fuel generalizing s t with
  | zero => contradiction
  | succ fuel ih =>
      rw [iterate] at ended ⊢
      cases step : body s with
      | inl result' =>
          rw [step] at ended
          cases ended
          exact ⟨t, by rw [lockstep.ends _ _ _ related step], related⟩
      | inr u =>
          rw [step] at ended
          obtain ⟨u', step', next⟩ := lockstep.goesOn _ _ _ related step
          rw [step']
          exact ih next ended

end Lockstep

end ChronoCap.Foundation.Loop
