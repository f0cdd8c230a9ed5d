/- module: ChronoCap/Foundation/Dispatch
   scope: library
   digest: Handlers told apart by a key: an event offered to all of them reaches the one it is
           meant for; a run over events puts out one result for each. -/

import Mathlib.Data.List.Forall2
import Mathlib.Data.List.Nodup
import Mathlib.Tactic.Common

set_option autoImplicit false
set_option relaxedAutoImplicit false

namespace ChronoCap.Foundation.Dispatch

universe u v w

section Offer

variable {α : Type u} {κ : Type v} {σ : Type w} {key : α → κ} {k : κ} {xs : List α} {x : α}

variable {m : Type w → Type*} [Monad m] [LawfulMonad m] {f : σ → α → m σ}

/-- Handlers with another key do nothing. -/
def Skips (key : α → κ) (k : κ) (f : σ → α → m σ) : Prop := ∀ x s, key x ≠ k → f s x = pure s

theorem foldlM_of_absent (skips : Skips key k f) (absent : k ∉ xs.map key) (s : σ) :
    xs.foldlM f s = pure s := by
  induction xs with
  | nil => rfl
  | cons x xs ih =>
      rw [List.map_cons, List.mem_cons, not_or] at absent
      rw [List.foldlM_cons, skips x s (Ne.symm absent.1), pure_bind, ih absent.2]

/-- Offered to all handlers, an event has the effect of its own handler alone. -/
theorem foldlM_of_mem (skips : Skips key k f) (distinct : (xs.map key).Nodup) (mem : x ∈ xs)
    (hit : key x = k) (s : σ) : xs.foldlM f s = f s x := by
  induction xs generalizing s with
  | nil => simp at mem
  | cons y xs ih =>
      rw [List.map_cons, List.nodup_cons] at distinct
      obtain ⟨fresh, distinct⟩ := distinct
      rw [List.foldlM_cons]
      rcases List.mem_cons.mp mem with rfl | later
      · have rest : ∀ s, xs.foldlM f s = pure s := fun s =>
          foldlM_of_absent skips (hit ▸ fresh) s
        simp only [rest, bind_pure]
      · have other : key y ≠ k := fun same =>
          fresh (same ▸ hit ▸ List.mem_map_of_mem later)
        rw [skips y s other, pure_bind, ih distinct later]

variable {g : σ → α → σ}

theorem foldl_of_mem (skips : ∀ x s, key x ≠ k → g s x = s) (distinct : (xs.map key).Nodup)
    (mem : x ∈ xs) (hit : key x = k) (s : σ) : xs.foldl g s = g s x := by
  rw [List.foldl_eq_foldlM]
  exact congrArg Id.run
    (foldlM_of_mem (m := Id) (fun x s other => skips x s other) distinct mem hit s)

end Offer

section Run

variable {σ : Type w} {ε : Type u} {β : Type v} {R : ε → β → Prop} {f : σ → ε → Option σ}
  {inv : σ → Prop} {out : σ → List β}

/-- If each event is handled and puts out its result, a run puts out the results in order. -/
theorem foldlM_emits
    (step : ∀ s e b, inv s → R e b → ∃ t, f s e = some t ∧ inv t ∧ out t = out s ++ [b])
    {es : List ε} {bs : List β} (all : List.Forall₂ R es bs) {s : σ} (start : inv s) :
    ∃ t, es.foldlM f s = some t ∧ inv t ∧ out t = out s ++ bs := by
  induction all generalizing s with
  | nil => exact ⟨s, rfl, start, by simp⟩
  | cons head _ ih =>
      obtain ⟨t, first, kept, one⟩ := step s _ _ start head
      obtain ⟨u, rest, kept, all⟩ := ih kept
      refine ⟨u, ?_, kept, ?_⟩
      · rw [List.foldlM_cons, first]
        exact rest
      · rw [all, one, List.append_assoc, List.singleton_append]

/-- What every handled event leaves as it is, a run leaves as it is. -/
theorem foldlM_keeps {γ : Type*} {part : σ → γ} {α : Type*} {f : σ → α → Option σ}
    (keeps : ∀ s a t, f s a = some t → part t = part s) {as : List α} {s t : σ}
    (run : as.foldlM f s = some t) : part t = part s := by
  induction as generalizing s with
  | nil =>
      obtain rfl := Option.some.inj run
      rfl
  | cons a as ih =>
      rw [List.foldlM_cons] at run
      obtain ⟨u, first, rest⟩ := Option.bind_eq_some_iff.mp run
      exact (ih rest).trans (keeps s a u first)

theorem map_eq_map_iff_forall₂ {γ : Type*} {f : ε → γ} {g : β → γ} {es : List ε} {bs : List β} :
    es.map f = bs.map g ↔ List.Forall₂ (fun e b => f e = g b) es bs := by
  rw [← List.forall₂_map_right_iff, ← List.forall₂_map_left_iff (R := Eq), List.forall₂_eq_eq_eq]

theorem exists_forall₂ {es : List ε} (each : ∀ e ∈ es, ∃ b, R e b) :
    ∃ bs, List.Forall₂ R es bs := by
  induction es with
  | nil => exact ⟨[], .nil⟩
  | cons e es ih =>
      obtain ⟨b, head⟩ := each e List.mem_cons_self
      obtain ⟨bs, tail⟩ := ih (fun e' h => each e' (List.mem_cons_of_mem e h))
      exact ⟨b :: bs, .cons head tail⟩

end Run

end ChronoCap.Foundation.Dispatch
