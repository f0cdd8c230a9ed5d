/- module: ChronoCap/Foundation/SlotWindow
   scope: library
   digest: A window of cells filled anywhere and emptied at its front: when it is a queue. -/

import ChronoCap.Foundation.Machine
import Mathlib.Data.List.Nodup
import Mathlib.Order.Basic

set_option autoImplicit false
set_option relaxedAutoImplicit false

namespace ChronoCap.Foundation

/-- Cells by distance from the front. Entries carry their number in the order of placement;
`behind` lists the entries that were placed with an empty cell in front of them. -/
@[ext] structure SlotWindow where
  cells : Nat → Option Nat
  placed : Nat
  behind : List Nat
  taken : List Nat

namespace SlotWindow

inductive Op where
  | place (d : Nat)
  | take

def empty : SlotWindow := ⟨fun _ => none, 0, [], []⟩

/-- No empty cell lies in front of cell `d`. -/
def Filled (s : SlotWindow) (d : Nat) : Prop := ∀ j < d, s.cells j ≠ none

open Classical in
noncomputable def place (s : SlotWindow) (d : Nat) : SlotWindow where
  cells := Function.update s.cells d (some s.placed)
  placed := s.placed + 1
  behind := if s.Filled d then s.behind else s.behind ++ [s.placed]
  taken := s.taken

def take (s : SlotWindow) : SlotWindow where
  cells j := s.cells (j + 1)
  placed := s.placed
  behind := s.behind
  taken := s.taken ++ (s.cells 0).toList

noncomputable def machine : Machine SlotWindow Op where
  Enabled s
    | .place d => s.cells d = none
    | .take => s.cells 0 ≠ none
  next s
    | .place d => s.place d
    | .take => s.take

section Runs

variable {allowed : SlotWindow → Op → Prop} {s t : SlotWindow} {ops : List Op}

theorem run_place (run : machine.Run allowed s ops t) {d : Nat} (free : t.cells d = none)
    (meets : allowed t (.place d)) : machine.Run allowed s (ops ++ [.place d]) (t.place d) :=
  Machine.Run.snoc run (show machine.Enabled t (.place d) from free) meets

theorem run_take (run : machine.Run allowed s ops t) (front : t.cells 0 ≠ none)
    (meets : allowed t .take) : machine.Run allowed s (ops ++ [.take]) t.take :=
  Machine.Run.snoc run (show machine.Enabled t .take from front) meets

end Runs

/-- Entries leave in the order of their placement. -/
def InOrder (s : SlotWindow) : Prop := s.taken.Pairwise (· < ·)

/-- What the cells say about the order of placement, in every reachable window. -/
structure Ordered (s : SlotWindow) : Prop where
  fresh : ∀ j k, s.cells j = some k → k < s.placed
  freshTaken : ∀ k ∈ s.taken, k < s.placed
  freshBehind : ∀ k ∈ s.behind, k < s.placed
  /-- an entry placed with nothing empty in front still has only older entries in front -/
  front : ∀ j k, s.cells j = some k → k ∉ s.behind →
    ∀ i < j, ∃ l, s.cells i = some l ∧ l < k
  older : ∀ j k, s.cells j = some k → k ∉ s.behind → ∀ l ∈ s.taken, l < k
  /-- an entry placed behind an empty cell stays behind it, or behind a younger entry -/
  overtaken : ∀ j k, s.cells j = some k → k ∈ s.behind →
    (∃ l ∈ s.taken, k < l) ∨ ∃ i < j, ∀ l, s.cells i = some l → k < l
  order : s.InOrder ↔ ∀ k ∈ s.taken, k ∉ s.behind

theorem ordered_empty : Ordered empty where
  fresh := by simp [empty]
  freshTaken := by simp [empty]
  freshBehind := by simp [empty]
  front := by simp [empty]
  older := by simp [empty]
  overtaken := by simp [empty]
  order := by simp [empty, InOrder]

variable {s : SlotWindow}

theorem cells_place (d j : Nat) :
    (s.place d).cells j = if j = d then some s.placed else s.cells j := by
  simp [place, Function.update_apply]

theorem mem_behind_place {d k : Nat} :
    k ∈ (s.place d).behind ↔ k ∈ s.behind ∨ (¬ s.Filled d ∧ k = s.placed) := by
  by_cases filled : s.Filled d <;> simp [place, filled]

/-- Entries already there are listed as before: the new number is not one of theirs. -/
theorem mem_behind_place_of_lt {d k : Nat} (h : k < s.placed) :
    k ∈ (s.place d).behind ↔ k ∈ s.behind := by
  rw [mem_behind_place]
  constructor
  · rintro (old | ⟨-, rfl⟩)
    · exact old
    · omega
  · exact Or.inl

/-- The new entry, if nothing empty is in front of it, has older ones there like the others. -/
theorem Ordered.place_front (inv : Ordered s) {d j k i : Nat} (free : s.cells d = none)
    (h : (s.place d).cells j = some k) (listed : k ∉ (s.place d).behind) (hi : i < j) :
    ∃ l, (s.place d).cells i = some l ∧ l < k := by
  rw [cells_place] at h
  split at h
  · rename_i hj
    cases h
    subst hj
    have filled : s.Filled j := by
      by_contra gap
      exact listed (mem_behind_place.mpr (.inr ⟨gap, rfl⟩))
    obtain ⟨l, hl⟩ := Option.ne_none_iff_exists'.mp (filled i hi)
    refine ⟨l, ?_, inv.fresh i l hl⟩
    rw [cells_place, if_neg (by omega), hl]
  · have old := inv.fresh j k h
    have listed' : k ∉ s.behind := fun hk => listed ((mem_behind_place_of_lt old).mpr hk)
    obtain ⟨l, hl, lt⟩ := inv.front j k h listed' i hi
    have other : i ≠ d := by
      rintro rfl
      simp [free] at hl
    exact ⟨l, by rw [cells_place, if_neg other, hl], lt⟩

/-- The new entry, if behind an empty cell, stays behind it; and no other is overtaken by it. -/
theorem Ordered.place_overtaken (inv : Ordered s) {d j k : Nat}
    (h : (s.place d).cells j = some k) (listed : k ∈ (s.place d).behind) :
    (∃ l ∈ s.taken, k < l) ∨ ∃ i < j, ∀ l, (s.place d).cells i = some l → k < l := by
  rw [cells_place] at h
  split at h
  · rename_i hj
    cases h
    subst hj
    right
    have gap : ¬ s.Filled j := by
      rcases mem_behind_place.mp listed with old | ⟨gap, -⟩
      · exact absurd (inv.freshBehind _ old) (Nat.lt_irrefl _)
      · exact gap
    simp only [Filled, not_forall] at gap
    obtain ⟨i, hi, empty⟩ := gap
    refine ⟨i, hi, ?_⟩
    intro l hl
    rw [cells_place, if_neg (by omega), not_not.mp empty] at hl
    cases hl
  · have old := inv.fresh j k h
    rcases inv.overtaken j k h ((mem_behind_place_of_lt old).mp listed) with gone | ⟨i, hi, cell⟩
    · exact .inl gone
    · refine .inr ⟨i, hi, ?_⟩
      intro l hl
      rw [cells_place] at hl
      split at hl
      · cases hl
        exact old
      · exact cell l hl

theorem Ordered.place (inv : Ordered s) {d : Nat} (free : s.cells d = none) :
    Ordered (s.place d) where
  fresh j k h := by
    rw [cells_place] at h
    change k < s.placed + 1
    split at h
    · cases h
      omega
    · have := inv.fresh j k h
      omega
  freshTaken k hk := Nat.lt_succ_of_lt (inv.freshTaken k hk)
  freshBehind k hk := by
    rcases mem_behind_place.mp hk with old | ⟨-, rfl⟩
    · exact Nat.lt_succ_of_lt (inv.freshBehind k old)
    · exact Nat.lt_succ_self _
  front j k h listed i hi := inv.place_front free h listed hi
  older j k h listed l hl := by
    rw [cells_place] at h
    split at h
    · cases h
      exact inv.freshTaken l hl
    · have old := inv.fresh j k h
      exact inv.older j k h (fun hk => listed ((mem_behind_place_of_lt old).mpr hk)) l hl
  overtaken j k h listed := inv.place_overtaken h listed
  order := by
    change s.InOrder ↔ ∀ k ∈ s.taken, k ∉ (s.place d).behind
    rw [inv.order]
    constructor
    · intro h k hk listed
      exact h k hk ((mem_behind_place_of_lt (inv.freshTaken k hk)).mp listed)
    · intro h k hk listed
      exact h k hk ((mem_behind_place_of_lt (inv.freshTaken k hk)).mpr listed)

theorem Ordered.take (inv : Ordered s) {k : Nat} (front : s.cells 0 = some k) :
    Ordered s.take where
  fresh j l h := inv.fresh (j + 1) l h
  freshTaken l hl := by
    simp only [SlotWindow.take, front, Option.toList_some, List.mem_append,
      List.mem_singleton] at hl
    rcases hl with hl | rfl
    · exact inv.freshTaken l hl
    · exact inv.fresh 0 l front
  freshBehind := inv.freshBehind
  front j l h listed i hi := inv.front (j + 1) l h listed (i + 1) (by omega)
  older j l h listed m hm := by
    simp only [SlotWindow.take, front, Option.toList_some, List.mem_append,
      List.mem_singleton] at hm
    rcases hm with hm | rfl
    · exact inv.older (j + 1) l h listed m hm
    · obtain ⟨k', hk', lt⟩ := inv.front (j + 1) l h listed 0 (by omega)
      rw [front] at hk'
      cases hk'
      exact lt
  overtaken j l h listed := by
    rcases inv.overtaken (j + 1) l h listed with ⟨m, hm, lt⟩ | ⟨i, hi, cell⟩
    · exact .inl ⟨m, List.mem_append_left _ hm, lt⟩
    · cases i with
      | zero => exact .inl ⟨k, by simp [SlotWindow.take, front], cell k front⟩
      | succ i => exact .inr ⟨i, by omega, cell⟩
  order := by
    have taken : s.take.taken = s.taken ++ [k] := by simp [SlotWindow.take, front]
    simp only [InOrder, taken, List.pairwise_append, List.pairwise_singleton, true_and,
      List.mem_singleton, forall_eq, List.mem_append]
    change (s.InOrder ∧ ∀ l ∈ s.taken, l < k) ↔ ∀ l, l ∈ s.taken ∨ l = k → l ∉ s.behind
    rw [inv.order]
    constructor
    · rintro ⟨good, all⟩ l (hl | rfl)
      · exact good l hl
      · intro listed
        rcases inv.overtaken 0 l front listed with ⟨m, hm, lt⟩ | ⟨i, hi, -⟩
        · exact absurd (all m hm) (by omega)
        · omega
    · intro good
      exact ⟨fun l hl => good l (.inl hl), fun l hl => inv.older 0 k front (good k (.inr rfl)) l hl⟩

/-- Entries leave in order exactly when none that left was placed behind an empty cell. -/
theorem inOrder_iff {ops : List Op} (run : machine.Run Machine.Free empty ops s) :
    s.InOrder ↔ ∀ k ∈ s.taken, k ∉ s.behind := by
  have inv : Ordered s := by
    apply run.invariant ordered_empty
    intro t a inv enabled _
    cases a with
    | place d => exact inv.place enabled
    | take =>
        obtain ⟨k, hk⟩ := Option.ne_none_iff_exists'.mp enabled
        exact inv.take hk
  exact inv.order

/-- A run that never places an entry behind an empty cell. -/
def NoGap (s : SlotWindow) : Op → Prop
  | .place d => s.Filled d
  | .take => True

/-- The window is a queue: the entries not yet taken, in order, from the front on. -/
structure Queue (s : SlotWindow) : Prop where
  le : s.taken.length ≤ s.placed
  cells : ∀ j, s.cells j =
    if s.taken.length + j < s.placed then some (s.taken.length + j) else none
  taken : s.taken = List.range s.taken.length
  behind : s.behind = []

theorem queue_empty : Queue empty where
  le := Nat.le_refl _
  cells j := by simp [empty]
  taken := rfl
  behind := rfl

theorem Queue.place (inv : Queue s) {d : Nat} (free : s.cells d = none) (filled : s.Filled d) :
    Queue (s.place d) := by
  have le := inv.le
  -- the first empty cell is the one right after the last entry
  have last : s.taken.length + d = s.placed := by
    have not_lt : ¬ s.taken.length + d < s.placed := by
      intro lt
      rw [inv.cells, if_pos lt] at free
      cases free
    rcases Nat.lt_or_ge s.placed (s.taken.length + d) with lt | ge
    · have cell := filled (s.placed - s.taken.length) (by omega)
      rw [inv.cells, if_neg (by omega)] at cell
      exact absurd rfl cell
    · omega
  refine ⟨Nat.le_succ_of_le le, ?_, inv.taken, ?_⟩
  · intro j
    change (s.place d).cells j =
      if s.taken.length + j < s.placed + 1 then some (s.taken.length + j) else none
    rw [cells_place, inv.cells]
    by_cases hj : j = d
    · subst hj
      simp [last]
    · rw [if_neg hj]
      exact if_congr (by omega) rfl rfl
  · simp only [SlotWindow.place, if_pos filled]
    exact inv.behind

theorem Queue.take (inv : Queue s) {k : Nat} (front : s.cells 0 = some k) : Queue s.take := by
  have first : s.taken.length < s.placed ∧ s.taken.length = k := by
    rw [inv.cells] at front
    split at front
    · exact ⟨by simpa using ‹_›, by simpa using front⟩
    · cases front
  have taken : s.take.taken = s.taken ++ [s.taken.length] := by
    simp [SlotWindow.take, front, first.2]
  have length : s.take.taken.length = s.taken.length + 1 := by simp [taken]
  refine ⟨by rw [length]; exact first.1, ?_, ?_, inv.behind⟩
  · intro j
    rw [length]
    change s.cells (j + 1) = _
    rw [inv.cells, Nat.add_right_comm]
    exact if_congr Iff.rfl (congrArg some (by omega)) rfl
  · rw [length, List.range_succ, taken]
    exact congrArg (· ++ [s.taken.length]) inv.taken

/-- Placements with nothing empty in front make the window a queue. -/
theorem queue_of_noGap {ops : List Op} (run : machine.Run NoGap empty ops s) : Queue s := by
  apply run.invariant queue_empty
  intro t a inv enabled meets
  cases a with
  | place d => exact inv.place enabled meets
  | take =>
      obtain ⟨k, hk⟩ := Option.ne_none_iff_exists'.mp enabled
      exact inv.take hk

/-- Nothing empty lies in front of an entry: emptying the front gets to every entry. -/
def Contiguous (s : SlotWindow) : Prop := ∀ j, s.cells j ≠ none → s.Filled j

theorem contiguous_empty : Contiguous empty := fun _ h => absurd rfl h

/-- A placement leaves no gap behind exactly if it finds none in front of it. -/
theorem contiguous_place_iff (inv : Contiguous s) (d : Nat) :
    Contiguous (s.place d) ↔ s.Filled d := by
  constructor
  · intro next j hj
    have filled := next d (by simp [cells_place]) j hj
    rwa [cells_place, if_neg (by omega)] at filled
  · intro filled j hj i hi
    rw [cells_place] at hj ⊢
    split
    · simp
    · split at hj
      · rename_i hd
        exact filled i (hd ▸ hi)
      · exact inv j hj i hi

theorem Contiguous.take (inv : Contiguous s) : Contiguous s.take := by
  intro j hj i hi
  exact inv (j + 1) hj (i + 1) (by omega)

theorem Contiguous.all_empty (inv : Contiguous s) (front : s.cells 0 = none) (j : Nat) :
    s.cells j = none := by
  by_contra filled
  cases j with
  | zero => exact filled front
  | succ j => exact inv (j + 1) filled 0 (by omega) front

end SlotWindow

end ChronoCap.Foundation
