/- module: ChronoCap/Foundation/Machine
   scope: library
   digest: Labelled machines, their runs under a step condition, and run invariants. -/

import Mathlib.Algebra.BigOperators.Group.List.Basic
import Mathlib.Algebra.Order.Ring.Nat
import Mathlib.Data.List.Induction

set_option autoImplicit false
set_option relaxedAutoImplicit false

namespace ChronoCap.Foundation

universe u v

/-- A machine with labelled steps: which labels can fire, and the state they lead to. -/
structure Machine (σ : Type u) (α : Type v) where
  Enabled : σ → α → Prop
  next : σ → α → σ

namespace Machine

variable {σ : Type u} {α : Type v} (M : Machine σ α)

/-- No condition on the steps of a run. -/
def Free : σ → α → Prop := fun _ _ => True

/-- A run from `s` whose steps are all enabled and meet `allowed` in the state before them. -/
inductive Run (allowed : σ → α → Prop) (s : σ) : List α → σ → Prop where
  | nil : Run allowed s [] s
  | snoc {as : List α} {t : σ} {a : α} (prior : Run allowed s as t)
      (enabled : M.Enabled t a) (meets : allowed t a) :
      Run allowed s (as ++ [a]) (M.next t a)

variable {M} {allowed : σ → α → Prop} {s t u : σ} {as bs : List α}

/-- What holds at the start and survives every allowed step holds after every run. -/
theorem Run.invariant {Inv : σ → Prop} (run : M.Run allowed s as t) (start : Inv s)
    (step : ∀ t a, Inv t → M.Enabled t a → allowed t a → Inv (M.next t a)) : Inv t := by
  induction run with
  | nil => exact start
  | snoc _ enabled meets ih => exact step _ _ ih enabled meets

theorem Run.weaken {allowed' : σ → α → Prop} (run : M.Run allowed s as t)
    (weaker : ∀ t a, M.Enabled t a → allowed t a → allowed' t a) : M.Run allowed' s as t := by
  induction run with
  | nil => exact .nil
  | snoc _ enabled meets ih => exact ih.snoc enabled (weaker _ _ enabled meets)

theorem Run.free (run : M.Run allowed s as t) : M.Run Free s as t :=
  run.weaken (fun _ _ _ _ => trivial)

theorem Run.trans (first : M.Run allowed s as t) (second : M.Run allowed t bs u) :
    M.Run allowed s (as ++ bs) u := by
  induction second with
  | nil => simpa using first
  | snoc _ enabled meets ih =>
      rw [← List.append_assoc]
      exact ih.snoc enabled meets

theorem Run.single {a : α} (enabled : M.Enabled s a) (meets : allowed s a) :
    M.Run allowed s [a] (M.next s a) :=
  Run.snoc .nil enabled meets

/-- A run with no condition on its steps just fires its labels one after the other. -/
theorem run_foldl (total : ∀ s a, M.Enabled s a) (s : σ) (as : List α) :
    M.Run Free s as (as.foldl M.next s) := by
  induction as using List.reverseRecOn with
  | nil => exact .nil
  | append_singleton as a ih =>
      rw [List.foldl_append]
      exact ih.snoc (total _ _) trivial

theorem Run.foldl (run : M.Run allowed s as t) : as.foldl M.next s = t := by
  induction run with
  | nil => rfl
  | snoc _ _ _ ih => rw [List.foldl_append, ih, List.foldl_cons, List.foldl_nil]

/-- The last step of a run, with the run before it. -/
theorem Run.last {a : α} (run : M.Run allowed s (as ++ [a]) u) :
    ∃ t, M.Run allowed s as t ∧ M.Enabled t a ∧ allowed t a ∧ M.next t a = u := by
  generalize whole : as ++ [a] = all at run
  cases run with
  | nil => simp at whole
  | snoc prior enabled meets =>
      obtain ⟨rfl, last⟩ := List.append_inj' whole rfl
      obtain rfl := List.singleton_injective last
      exact ⟨_, prior, enabled, meets, rfl⟩

variable (M) in
/-- What the steps of a run report, one after the other. -/
def log {β : Type*} (report : σ → α → List β) : σ → List α → List β
  | _, [] => []
  | s, a :: as => report s a ++ log report (M.next s a) as

theorem log_append {β : Type*} (report : σ → α → List β) (s : σ) (as bs : List α) :
    M.log report s (as ++ bs) = M.log report s as ++ M.log report (as.foldl M.next s) bs := by
  induction as generalizing s with
  | nil => rfl
  | cons a as ih => rw [List.cons_append, log, log, ih, List.append_assoc, List.foldl_cons]

theorem Run.log_snoc {β : Type*} (report : σ → α → List β) (run : M.Run allowed s as t) (a : α) :
    M.log report s (as ++ [a]) = M.log report s as ++ report t a := by
  rw [log_append, run.foldl, log, log, List.append_nil]

/-- A run of a machine is one of its part, if each step either is a step of the part or leaves it
alone. -/
theorem Run.project {τ : Type*} {β : Type*} {N : Machine τ β} (part : σ → τ)
    (component : α → Option β) (run : M.Run allowed s as t)
    (moves : ∀ t a b, M.Enabled t a → component a = some b →
      N.Enabled (part t) b ∧ part (M.next t a) = N.next (part t) b)
    (idle : ∀ t a, component a = none → part (M.next t a) = part t) :
    N.Run Free (part s) (as.filterMap component) (part t) := by
  induction run with
  | nil => exact .nil
  | @snoc as t a _ enabled _ ih =>
      rw [List.filterMap_append]
      cases own : component a with
      | none =>
          rw [List.filterMap_cons_none own, List.filterMap_nil, List.append_nil, idle t a own]
          exact ih
      | some b =>
          obtain ⟨fires, next⟩ := moves t a b enabled own
          rw [List.filterMap_cons_some own, List.filterMap_nil, next]
          exact ih.snoc fires trivial

/-- A forward simulation: if each step is matched by steps of the other machine that report the
same, so is each run. -/
theorem Run.simulate {τ : Type*} {β γ : Type*} {N : Machine τ β} {Rel : σ → τ → Prop}
    (report : σ → α → List γ) (answer : β → List γ) (run : M.Run allowed s as t)
    (step : ∀ t a q, Rel t q → M.Enabled t a → allowed t a → ∃ bs q', N.Run Free q bs q' ∧
      bs.flatMap answer = report t a ∧ Rel (M.next t a) q') {q : τ} (start : Rel s q) :
    ∃ bs q', N.Run Free q bs q' ∧ bs.flatMap answer = M.log report s as ∧ Rel t q' := by
  induction run with
  | nil => exact ⟨[], q, .nil, rfl, start⟩
  | @snoc as t a prior enabled meets ih =>
      obtain ⟨bs, u, first, same, related⟩ := ih
      obtain ⟨cs, q', second, one, related'⟩ := step t a u related enabled meets
      refine ⟨bs ++ cs, q', first.trans second, ?_, related'⟩
      rw [List.flatMap_append, prior.log_snoc, same, one]

/-- What the steps of a run cost together is paid out of a potential and what the steps add to
it. -/
theorem Run.amortized {Inv : σ → Prop} (potential : σ → Nat) {cost gain : α → Nat}
    (run : M.Run allowed s as t) (start : Inv s)
    (keep : ∀ t a, Inv t → M.Enabled t a → allowed t a → Inv (M.next t a))
    (pays : ∀ t a, Inv t → M.Enabled t a → allowed t a →
      cost a + potential (M.next t a) ≤ potential t + gain a) :
    (as.map cost).sum + potential t ≤ potential s + (as.map gain).sum := by
  induction run with
  | nil => simp
  | snoc prior enabled meets ih =>
      have next := pays _ _ (prior.invariant start keep) enabled meets
      simp only [List.map_append, List.sum_append, List.map_cons, List.map_nil, List.sum_cons,
        List.sum_nil]
      omega

/-- The same, where what is added is read off the states. -/
theorem Run.amortized_income {Inv : σ → Prop} (potential income : σ → Nat) {cost : α → Nat}
    (run : M.Run allowed s as t) (start : Inv s)
    (keep : ∀ t a, Inv t → M.Enabled t a → allowed t a → Inv (M.next t a))
    (pays : ∀ t a, Inv t → M.Enabled t a → allowed t a →
      cost a + potential (M.next t a) + income t ≤ potential t + income (M.next t a)) :
    (as.map cost).sum + potential t + income s ≤ potential s + income t := by
  induction run with
  | nil => simp
  | snoc prior enabled meets ih =>
      have next := pays _ _ (prior.invariant start keep) enabled meets
      simp only [List.map_append, List.sum_append, List.map_cons, List.map_nil, List.sum_cons,
        List.sum_nil]
      omega

/-- The same, for what the steps report. -/
theorem Run.amortized_log {β : Type*} {Inv : σ → Prop} (report : σ → α → List β)
    (potential income : σ → Nat) (run : M.Run allowed s as t) (start : Inv s)
    (keep : ∀ t a, Inv t → M.Enabled t a → allowed t a → Inv (M.next t a))
    (pays : ∀ t a, Inv t → M.Enabled t a → allowed t a →
      (report t a).length + potential (M.next t a) + income t ≤
        potential t + income (M.next t a)) :
    (M.log report s as).length + potential t + income s ≤ potential s + income t := by
  induction run with
  | nil => simp [log]
  | snoc prior enabled meets ih =>
      have next := pays _ _ (prior.invariant start keep) enabled meets
      rw [prior.log_snoc, List.length_append]
      omega

/-- Conditions that agree wherever an invariant of their runs holds have the same runs. -/
theorem Run.iff_of_kept {Inv : σ → Prop} {P Q : σ → α → Prop} (start : Inv s)
    (keep : ∀ t a, Inv t → M.Enabled t a → Q t a → Inv (M.next t a))
    (same : ∀ t a, Inv t → M.Enabled t a → (P t a ↔ Q t a)) :
    M.Run P s as t ↔ M.Run Q s as t := by
  constructor
  · intro run
    induction run with
    | nil => exact .nil
    | snoc prior enabled meets ih =>
        exact ih.snoc enabled ((same _ _ (ih.invariant start keep) enabled).mp meets)
  · intro run
    induction run with
    | nil => exact .nil
    | snoc prior enabled meets ih =>
        exact ih.snoc enabled ((same _ _ (prior.invariant start keep) enabled).mpr meets)

/-- Conditions that agree wherever an invariant of all runs holds have the same runs. -/
theorem Run.iff_of_invariant {Inv : σ → Prop} {P Q : σ → α → Prop} (start : Inv s)
    (keep : ∀ t a, Inv t → M.Enabled t a → Inv (M.next t a))
    (same : ∀ t a, Inv t → M.Enabled t a → (P t a ↔ Q t a)) :
    M.Run P s as t ↔ M.Run Q s as t :=
  Run.iff_of_kept start (fun t a inv enabled _ => keep t a inv enabled) same

variable (M) in
/-- The labels fire one after the other from `s`. -/
def Fires (allowed : σ → α → Prop) : σ → List α → Prop
  | _, [] => True
  | s, a :: as => M.Enabled s a ∧ allowed s a ∧ Fires allowed (M.next s a) as

variable (M) in
instance decidableFires [∀ s, DecidablePred (M.Enabled s)] [∀ s, DecidablePred (allowed s)] :
    (s : σ) → DecidablePred (M.Fires allowed s)
  | _, [] => .isTrue trivial
  | s, a :: as =>
      have := decidableFires (M.next s a) as
      inferInstanceAs (Decidable (M.Enabled s a ∧ allowed s a ∧ M.Fires allowed (M.next s a) as))

instance (s : σ) : DecidablePred (Free s : α → Prop) := fun _ => .isTrue trivial

theorem run_of_fires (fires : M.Fires allowed s as) :
    M.Run allowed s as (as.foldl M.next s) := by
  induction as generalizing s with
  | nil => exact .nil
  | cons a as ih =>
      obtain ⟨enabled, meets, rest⟩ := fires
      exact (Run.single enabled meets).trans (ih rest)

/-- The exact condition of a property of runs. If, as long as `P` holds, a step keeps `P` exactly
when it is allowed, and allowed steps keep `Inv`, then `P` holds all along exactly when every step
is allowed. -/
theorem always_iff_fires (total : ∀ s a, M.Enabled s a) (Inv : σ → Prop) {P : σ → Prop}
    (start : Inv s) (here : P s) (exact : ∀ t a, Inv t → P t → (P (M.next t a) ↔ allowed t a))
    (keep : ∀ t a, Inv t → P t → allowed t a → Inv (M.next t a)) :
    (∀ bs, bs <+: as → P (bs.foldl M.next s)) ↔ M.Fires allowed s as := by
  induction as generalizing s with
  | nil =>
      refine ⟨fun _ => trivial, ?_⟩
      intro _ bs before
      rw [List.prefix_nil.mp before]
      exact here
  | cons a as ih =>
      constructor
      · intro always
        have next : P (M.next s a) := always [a] (by simp)
        have meets := (exact s a start here).mp next
        refine ⟨total s a, meets, (ih (keep s a start here meets) next).mp ?_⟩
        intro bs before
        exact always (a :: bs) (List.cons_prefix_cons.mpr ⟨rfl, before⟩)
      · rintro ⟨-, meets, rest⟩ bs before
        cases bs with
        | nil => exact here
        | cons b bs =>
            obtain ⟨rfl, later⟩ := List.cons_prefix_cons.mp before
            have next := (exact s b start here).mpr meets
            exact (ih (keep s b start here meets) next).mpr rest bs later

end Machine

end ChronoCap.Foundation
