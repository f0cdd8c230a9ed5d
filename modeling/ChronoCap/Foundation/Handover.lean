/- module: ChronoCap/Foundation/Handover
   scope: library
   digest: Plain data that a flag guards, one flag a place: a thread that finds the flag at its
           value uses the data and stores the flag. It races exactly if that store was not the
           last one or another thread is still at the data. -/

import ChronoCap.Foundation.ReleaseAcquire
import Mathlib.Data.Fintype.Defs

set_option autoImplicit false
set_option relaxedAutoImplicit false

namespace ChronoCap.Foundation.Handover

open ReleaseAcquire

variable {Loc Thread Val : Type}

/-- All that the other threads did with the data of `l` happened before. -/
def Ordered (M : Memory Loc Thread Val) (touched : Loc → Thread → Nat) (t : Thread) (l : Loc) :
    Prop :=
  ∀ u, u ≠ t → touched l u ≤ M.view t (.past u)

instance [Fintype Thread] [DecidableEq Thread] (M : Memory Loc Thread Val)
    (touched : Loc → Thread → Nat) (t : Thread) (l : Loc) : Decidable (Ordered M touched t l) :=
  inferInstanceAs (Decidable (∀ _, _))

/-- In which of its epochs a thread was last at the data, when it accesses it now. -/
def touch [DecidableEq Loc] [DecidableEq Thread] (M : Memory Loc Thread Val)
    (touched : Loc → Thread → Nat) (t : Thread) (l : Loc) : Loc → Thread → Nat :=
  Function.update touched l (Function.update (touched l) t (M.epoch t))

/-- The thread has found the store and nothing later. -/
structure Found (M : Memory Loc Thread Val) (t : Thread) (l : Loc) (m : Message Loc Thread Val) :
    Prop where
  mem : m ∈ M.messages l
  stamp : m.stamp = M.view t (.seen l)
  view : m.view ≤ M.view t

/-- The threads that have `entered` found the flag at their value; those `inside` have also been at
the data, and none of these has stored the flag yet. -/
structure Guarded (turn : Thread → Val) (M : Memory Loc Thread Val) (touched : Loc → Thread → Nat)
    (entered inside : Loc → Thread → Prop) : Prop where
  causal : M.Causal
  newest : ∀ l, ∀ m ∈ M.older l, m.stamp < (M.latest l).stamp
  /-- a store that is not the last one was answered by a thread that waited for it -/
  answered : ∀ l, ∀ m ∈ M.older l, ∃ t, turn t = m.value ∧ m.stamp < M.view t (.seen l)
  found : ∀ l t, entered l t → ∃ m, Found M t l m ∧ m.value = turn t
  within : ∀ l t, inside l t → entered l t
  holds : ∀ l t, inside l t → (M.latest l).stamp ≤ M.view t (.seen l)
  alone : ∀ l t u, inside l t → inside l u → t = u
  /-- who is not at the data has released what it did there, and the last store knows of it -/
  covered : ∀ l t, ¬ inside l t → touched l t ≤ (M.latest l).view (.past t)
  marked : ∀ l t, (M.latest l).author = some t → (M.latest l).view (.past t) ≤ touched l t
  current : ∀ l t, inside l t → M.epoch t ≤ touched l t
  past : ∀ l t, touched l t ≤ M.epoch t

variable {turn : Thread → Val} {M : Memory Loc Thread Val} {touched : Loc → Thread → Nat}
  {entered inside entered' inside' : Loc → Thread → Prop} {l : Loc} {t u : Thread}
  {m : Message Loc Thread Val}

theorem touch_self [DecidableEq Loc] [DecidableEq Thread] (M : Memory Loc Thread Val)
    (touched : Loc → Thread → Nat) (t : Thread) (l : Loc) :
    touch M touched t l l t = M.epoch t := by
  rw [touch, Function.update_self, Function.update_self]

theorem touch_of_ne [DecidableEq Loc] [DecidableEq Thread] (M : Memory Loc Thread Val)
    (touched : Loc → Thread → Nat) {k : Loc} (ne : ¬ (u = t ∧ k = l)) :
    touch M touched t l k u = touched k u := by
  by_cases here : k = l
  · subst here
    rw [touch, Function.update_self, Function.update_of_ne (fun same => ne ⟨same, rfl⟩)]
  · rw [touch, Function.update_of_ne here]

namespace Guarded

theorem congr (guarded : Guarded turn M touched entered inside)
    (enters : ∀ l t, entered' l t ↔ entered l t) (goes : ∀ l t, inside' l t ↔ inside l t) :
    Guarded turn M touched entered' inside' := by
  obtain rfl : entered' = entered := funext₂ fun l t => propext (enters l t)
  obtain rfl : inside' = inside := funext₂ fun l t => propext (goes l t)
  exact guarded

theorem latest_of_found (guarded : Guarded turn M touched entered inside) (found : Found M t l m)
    (seen : (M.latest l).stamp ≤ M.view t (.seen l)) : m = M.latest l := by
  rcases Memory.mem_messages.mp found.mem with old | last
  · have := guarded.newest l m old
    rw [found.stamp] at this
    omega
  · exact last

/-- The one thread that waits for a value finds the last store, or another value. -/
theorem latest_of_sole (guarded : Guarded turn M touched entered inside)
    (sole : ∀ u, turn u = turn t → u = t) (mem : m ∈ M.messages l) (value : m.value = turn t)
    (le : M.view t (.seen l) ≤ m.stamp) : m = M.latest l := by
  rcases Memory.mem_messages.mp mem with old | last
  · obtain ⟨u, waits, lt⟩ := guarded.answered l m old
    obtain rfl := sole u (waits.trans value)
    omega
  · exact last

/-- Who knows of all that was done with the data has seen the store that released it. -/
theorem latest_le_of_ordered (guarded : Guarded turn M touched entered inside)
    (ordered : Ordered M touched t l) : (M.latest l).stamp ≤ M.view t (.seen l) := by
  have mem := M.latest_mem l
  have place := guarded.causal.place l _ mem
  cases author : (M.latest l).author with
  | none =>
      rw [guarded.causal.first l _ mem author]
      exact Nat.zero_le _
  | some u =>
      rw [← place]
      by_cases mine : u = t
      · exact (guarded.causal.own l _ mem t (mine ▸ author)).1 _
      · have le := (guarded.marked l u author).trans (ordered u mine)
        exact guarded.causal.knows t mem author le _

/-- An access is free of races exactly if the thread has seen the last store and no other thread is
at the data. -/
theorem ordered_iff (guarded : Guarded turn M touched entered inside) (enters : entered l t) :
    Ordered M touched t l ↔
      (M.latest l).stamp ≤ M.view t (.seen l) ∧ ∀ u, u ≠ t → ¬ inside l u := by
  constructor
  · intro ordered
    refine ⟨guarded.latest_le_of_ordered ordered, ?_⟩
    intro u ne within
    have le := (guarded.current l u within).trans (ordered u ne)
    exact absurd le (guarded.causal.past_lt_epoch ne).not_ge
  · rintro ⟨seen, free⟩ u ne
    obtain ⟨m, found, -⟩ := guarded.found l t enters
    obtain rfl := guarded.latest_of_found found seen
    exact (guarded.covered l u (free u ne)).trans (found.view _)

variable [DecidableEq Thread]

/-- A thread that is nowhere finds a store; it may enter there if this is the value it waits
for. -/
theorem find (guarded : Guarded turn M touched entered inside) (mem : m ∈ M.messages l)
    (coherent : M.view t (.seen l) ≤ m.stamp) (nowhere : ∀ k, ¬ inside k t)
    (enters : ∀ k u, entered' k u → u ≠ t ∧ entered k u ∨ (u = t ∧ k = l ∧ m.value = turn t))
    (stay : ∀ k u, inside k u → entered' k u) :
    Guarded turn (M.acquire t m) touched entered' inside where
  causal := guarded.causal.acquire t mem
  newest := guarded.newest
  within := stay
  alone := guarded.alone
  covered := guarded.covered
  marked := guarded.marked
  answered k n old := by
    obtain ⟨u, waits, lt⟩ := guarded.answered k n old
    exact ⟨u, waits, lt.trans_le (Memory.view_le_acquire M t m u _)⟩
  found k u enters' := by
    rcases enters k u enters' with ⟨ne, before⟩ | ⟨rfl, rfl, value⟩
    · obtain ⟨n, found, waits⟩ := guarded.found k u before
      have same := Memory.view_acquire_of_ne M m ne
      exact ⟨n, ⟨found.mem, same ▸ found.stamp, same ▸ found.view⟩, waits⟩
    · refine ⟨m, ⟨mem, ?_, ?_⟩, value⟩
      · rw [Memory.view_acquire, Pi.sup_apply, guarded.causal.place k m mem]
        exact (max_eq_right coherent).symm
      · rw [Memory.view_acquire]
        exact le_sup_right
  holds k u within := (guarded.holds k u within).trans (Memory.view_le_acquire M t m u _)
  current k u within := by
    have ne : u ≠ t := fun same => nowhere k (same ▸ within)
    rw [Memory.epoch, Memory.view_acquire_of_ne M m ne]
    exact guarded.current k u within
  past k u := (guarded.past k u).trans (Memory.view_le_acquire M t m u _)

variable [DecidableEq Loc]

theorem init (turn : Thread → Val) (value : Val) (none_entered : ∀ l t, ¬ entered l t)
    (none_inside : ∀ l t, ¬ inside l t) :
    Guarded turn (.init value : Memory Loc Thread Val) (fun _ _ => 0) entered inside where
  causal := Memory.causal_init value
  newest _ _ mem := absurd mem List.not_mem_nil
  answered _ _ mem := absurd mem List.not_mem_nil
  found l t enters := absurd enters (none_entered l t)
  within l t within := absurd within (none_inside l t)
  holds l t within := absurd within (none_inside l t)
  alone l t _ within := absurd within (none_inside l t)
  covered _ _ _ := Nat.zero_le _
  marked _ _ author := nomatch author
  current l t within := absurd within (none_inside l t)
  past _ _ := Nat.zero_le _

/-- A thread that has entered accesses the data while it may. -/
theorem access (guarded : Guarded turn M touched entered inside) (enters : entered l t)
    (seen : (M.latest l).stamp ≤ M.view t (.seen l)) (free : ∀ u, u ≠ t → ¬ inside l u)
    (goes : ∀ k u, inside' k u ↔ inside k u ∨ (u = t ∧ k = l)) :
    Guarded turn M (touch M touched t l) entered inside' where
  causal := guarded.causal
  newest := guarded.newest
  answered := guarded.answered
  found := guarded.found
  within k u within := by
    rcases (goes k u).mp within with before | ⟨rfl, rfl⟩
    · exact guarded.within k u before
    · exact enters
  holds k u within := by
    rcases (goes k u).mp within with before | ⟨rfl, rfl⟩
    · exact guarded.holds k u before
    · exact seen
  alone k u v within within' := by
    rcases (goes k u).mp within with before | ⟨mine, rfl⟩
    · rcases (goes k v).mp within' with before' | ⟨rfl, rfl⟩
      · exact guarded.alone k u v before before'
      · by_contra ne
        exact free u ne before
    · rcases (goes k v).mp within' with before' | ⟨mine', -⟩
      · by_contra ne
        exact free v (fun same => ne (mine.trans same.symm)) before'
      · exact mine.trans mine'.symm
  covered k u outside := by
    rw [goes, not_or] at outside
    rw [touch_of_ne M touched outside.2]
    exact guarded.covered k u outside.1
  marked k u author := by
    by_cases mine : u = t ∧ k = l
    · obtain ⟨rfl, rfl⟩ := mine
      rw [touch_self]
      exact (guarded.causal.own k _ (M.latest_mem k) u author).2.le
    · rw [touch_of_ne M touched mine]
      exact guarded.marked k u author
  current k u within := by
    by_cases mine : u = t ∧ k = l
    · obtain ⟨rfl, rfl⟩ := mine
      rw [touch_self]
    · rw [touch_of_ne M touched mine]
      exact guarded.current k u (((goes k u).mp within).resolve_right mine)
  past k u := by
    by_cases mine : u = t ∧ k = l
    · obtain ⟨rfl, rfl⟩ := mine
      rw [touch_self]
    · rw [touch_of_ne M touched mine]
      exact guarded.past k u

/-- The thread at the data stores the flag and leaves. -/
theorem store (guarded : Guarded turn M touched entered inside) {value : Val} {stamp : Nat}
    (here : inside l t) (only : ∀ k, inside k t → k = l)
    (later : M.view t (.seen l) < stamp) (waited : (M.latest l).value = turn t)
    (enters : ∀ k u, entered' k u → u ≠ t ∧ entered k u)
    (goes : ∀ k u, inside' k u ↔ u ≠ t ∧ inside k u) (stay : ∀ k u, inside' k u → entered' k u) :
    Guarded turn (M.store t l value stamp) touched entered' inside' where
  causal := guarded.causal.store later
  newest k n old := by
    by_cases there : k = l
    · subst there
      simp only [Memory.store, Function.update_self] at old ⊢
      have le : n.stamp ≤ (M.latest k).stamp := by
        rcases Memory.mem_messages.mp old with before | rfl
        · exact (guarded.newest k n before).le
        · exact le_refl _
      exact (le.trans (guarded.holds k t here)).trans_lt later
    · simp only [Memory.store, Function.update_of_ne there] at old ⊢
      exact guarded.newest k n old
  answered k n old := by
    by_cases there : k = l
    · subst there
      simp only [Memory.store, Function.update_self] at old
      rcases Memory.mem_messages.mp old with before | rfl
      · obtain ⟨u, waits, lt⟩ := guarded.answered k n before
        exact ⟨u, waits, lt.trans_le (Memory.view_le_store later u _)⟩
      · refine ⟨t, waited.symm, ?_⟩
        have new : stamp ≤ (M.store t k value stamp).view t (.seen k) :=
          (Memory.released_seen M t k stamp).ge.trans (Memory.released_le_store M t k value stamp _)
        exact ((guarded.holds k t here).trans_lt later).trans_le new
    · simp only [Memory.store, Function.update_of_ne there] at old
      obtain ⟨u, waits, lt⟩ := guarded.answered k n old
      exact ⟨u, waits, lt.trans_le (Memory.view_le_store later u _)⟩
  found k u enters' := by
    obtain ⟨ne, before⟩ := enters k u enters'
    obtain ⟨n, found, waits⟩ := guarded.found k u before
    have same := Memory.view_store_of_ne M (l := l) value stamp ne
    exact ⟨n, ⟨Memory.mem_store_of_mem found.mem, same ▸ found.stamp, same ▸ found.view⟩, waits⟩
  within := stay
  holds k u within := by
    obtain ⟨ne, before⟩ := (goes k u).mp within
    have there : k ≠ l := by
      rintro rfl
      exact ne (guarded.alone k u t before here)
    rw [Memory.view_store_of_ne M value stamp ne]
    simp only [Memory.store, Function.update_of_ne there]
    exact guarded.holds k u before
  alone k u v within within' :=
    guarded.alone k u v ((goes k u).mp within).2 ((goes k v).mp within').2
  covered k u outside := by
    by_cases there : k = l
    · subst there
      simp only [Memory.store, Function.update_self]
      by_cases mine : u = t
      · subst mine
        rw [Memory.released_past]
        exact guarded.past k u
      · rw [Memory.released_past]
        obtain ⟨m, found, -⟩ := guarded.found k t (guarded.within k t here)
        obtain rfl := guarded.latest_of_found found (guarded.holds k t here)
        have outside' : ¬ inside k u := fun within => mine (guarded.alone k u t within here)
        exact (guarded.covered k u outside').trans (found.view _)
    · simp only [Memory.store, Function.update_of_ne there]
      apply guarded.covered k u
      intro within
      by_cases mine : u = t
      · exact there (only k (mine ▸ within))
      · exact outside ((goes k u).mpr ⟨mine, within⟩)
  marked k u author := by
    by_cases there : k = l
    · subst there
      simp only [Memory.store, Function.update_self] at author ⊢
      obtain rfl := Option.some.inj author
      rw [Memory.released_past]
      exact guarded.current k t here
    · simp only [Memory.store, Function.update_of_ne there] at author ⊢
      exact guarded.marked k u author
  current k u within := by
    obtain ⟨ne, before⟩ := (goes k u).mp within
    rw [Memory.epoch_store_of_ne M value stamp ne]
    exact guarded.current k u before
  past k u := (guarded.past k u).trans (Memory.view_le_store later u _)

end Guarded

end ChronoCap.Foundation.Handover
