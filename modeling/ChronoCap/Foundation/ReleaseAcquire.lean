/- module: ChronoCap/Foundation/ReleaseAcquire
   scope: library
   digest: Atomic locations with release stores and acquire loads: a load may find any store that
           is not older than what the thread has seen, and brings along the past of its thread. -/

import Mathlib.Logic.Function.Basic
import Mathlib.Order.Lattice

set_option autoImplicit false
set_option relaxedAutoImplicit false

namespace ChronoCap.Foundation.ReleaseAcquire

/-- What a view says: up to which place in its modification order a location has been seen, and up
to which of its releases a thread's past is known. -/
inductive Coord (Loc Thread : Type) where
  | seen (l : Loc)
  | past (t : Thread)
  deriving DecidableEq

abbrev View (Loc Thread : Type) := Coord Loc Thread → Nat

/-- A store to an atomic location: its place in the modification order, and the view that whoever
finds it acquires. Nobody made the first one. -/
structure Message (Loc Thread Val : Type) where
  stamp : Nat
  value : Val
  author : Option Thread
  view : View Loc Thread

/-- The stores to each location in the order in which they were executed, the last one apart, and
what each thread has seen. -/
structure Memory (Loc Thread Val : Type) where
  older : Loc → List (Message Loc Thread Val)
  latest : Loc → Message Loc Thread Val
  view : Thread → View Loc Thread

inductive Op (Loc Thread Val : Type) where
  /-- finds the `n`-th store -/
  | load (t : Thread) (l : Loc) (n : Nat)
  | store (t : Thread) (l : Loc) (value : Val) (stamp : Nat)

def Op.thread {Loc Thread Val : Type} : Op Loc Thread Val → Thread
  | .load t _ _ => t
  | .store t _ _ _ => t

namespace Memory

variable {Loc Thread Val : Type}

def messages (M : Memory Loc Thread Val) (l : Loc) : List (Message Loc Thread Val) :=
  M.older l ++ [M.latest l]

/-- The number of the release that the thread makes next: with it the others learn of all that the
thread does before it. -/
def epoch (M : Memory Loc Thread Val) (t : Thread) : Nat := M.view t (.past t)

/-- Coherence: a thread finds no store older than one it has seen, and its own stores come later in
the modification order than these, at any place that is not taken. -/
def Coherent (M : Memory Loc Thread Val) : Op Loc Thread Val → Prop
  | .load t l n => ∃ m ∈ (M.messages l)[n]?, M.view t (.seen l) ≤ m.stamp
  | .store t l _ stamp => M.view t (.seen l) < stamp ∧ ∀ m ∈ M.messages l, m.stamp ≠ stamp

instance (M : Memory Loc Thread Val) : DecidablePred M.Coherent
  | .load t l n =>
      match found : (M.messages l)[n]? with
      | none => .isFalse (fun ⟨m, mem, _⟩ => by simp [found] at mem)
      | some m => decidable_of_iff (M.view t (.seen l) ≤ m.stamp) (by simp [Coherent, found])
  | .store _ _ _ _ => inferInstanceAs (Decidable (_ ∧ ∀ m ∈ _, _))

variable [DecidableEq Loc] [DecidableEq Thread]

def init (value : Val) : Memory Loc Thread Val where
  older _ := []
  latest _ := ⟨0, value, none, fun _ => 0⟩
  view t := Function.update (fun _ => 0) (.past t) 1

/-- Finding a store: all that its view says is from now on seen. -/
def acquire (M : Memory Loc Thread Val) (t : Thread) (m : Message Loc Thread Val) :
    Memory Loc Thread Val := { M with view := Function.update M.view t (M.view t ⊔ m.view) }

/-- The view that a store releases. -/
def released (M : Memory Loc Thread Val) (t : Thread) (l : Loc) (stamp : Nat) :
    View Loc Thread := Function.update (M.view t) (.seen l) stamp

def store (M : Memory Loc Thread Val) (t : Thread) (l : Loc) (value : Val) (stamp : Nat) :
    Memory Loc Thread Val where
  older := Function.update M.older l (M.messages l)
  latest := Function.update M.latest l ⟨stamp, value, some t, M.released t l stamp⟩
  view := Function.update M.view t
    (Function.update (M.released t l stamp) (.past t) (M.epoch t + 1))

def next (M : Memory Loc Thread Val) : Op Loc Thread Val → Memory Loc Thread Val
  | .load t l n => ((M.messages l)[n]?.map (M.acquire t)).getD M
  | .store t l value stamp => M.store t l value stamp

end Memory

/-! What a thread knows of the past of another it has from one of its stores. -/

namespace Memory

variable {Loc Thread Val : Type} {M : Memory Loc Thread Val} {v w : View Loc Thread} {l : Loc}
  {t u : Thread} {m : Message Loc Thread Val}

theorem mem_messages : m ∈ M.messages l ↔ m ∈ M.older l ∨ m = M.latest l := by
  rw [messages, List.mem_append, List.mem_singleton]

theorem latest_mem (M : Memory Loc Thread Val) (l : Loc) : M.latest l ∈ M.messages l :=
  mem_messages.mpr (.inr rfl)

theorem getElem?_latest (M : Memory Loc Thread Val) (l : Loc) :
    (M.messages l)[(M.older l).length]? = some (M.latest l) := by
  rw [messages, List.getElem?_append_right (le_refl _), Nat.sub_self]
  rfl

/-- All that the view knows of the thread it has from one of its stores. -/
def Heard (M : Memory Loc Thread Val) (v : View Loc Thread) (t : Thread) : Prop :=
  v (.past t) = 0 ∨ ∃ l, ∃ m ∈ M.messages l,
    m.author = some t ∧ m.view (.past t) = v (.past t) ∧ m.view ≤ v

/-- Each store tells its own place and what its thread knew, in the order of its thread's stores,
and views know of a thread what its stores told. -/
structure Causal (M : Memory Loc Thread Val) : Prop where
  first : ∀ l, ∀ m ∈ M.messages l, m.author = none → m.stamp = 0
  place : ∀ l, ∀ m ∈ M.messages l, m.view (.seen l) = m.stamp
  own : ∀ l, ∀ m ∈ M.messages l, ∀ t, m.author = some t →
    m.view ≤ M.view t ∧ m.view (.past t) < M.epoch t
  event : ∀ l, ∀ m ∈ M.messages l, ∀ t, m.author = some t → 0 < m.view (.past t)
  chain : ∀ l k, ∀ m ∈ M.messages l, ∀ n ∈ M.messages k, ∀ t, m.author = some t →
    n.author = some t → m.view (.past t) ≤ n.view (.past t) → m.view ≤ n.view
  born : ∀ t, 0 < M.epoch t
  heard : ∀ t u, t ≠ u → M.Heard (M.view u) t
  told : ∀ k, ∀ m ∈ M.messages k, ∀ t, M.Heard m.view t

theorem Heard.sup (hv : M.Heard v t) (hw : M.Heard w t) : M.Heard (v ⊔ w) t := by
  rcases le_total (v (.past t)) (w (.past t)) with less | more
  · have same : (v ⊔ w) (.past t) = w (.past t) := max_eq_right less
    rcases hw with none | ⟨k, m, mem, author, clock, le⟩
    · exact .inl (same.trans none)
    · exact .inr ⟨k, m, mem, author, clock.trans same.symm, le.trans le_sup_right⟩
  · have same : (v ⊔ w) (.past t) = v (.past t) := max_eq_left more
    rcases hv with none | ⟨k, m, mem, author, clock, le⟩
    · exact .inl (same.trans none)
    · exact .inr ⟨k, m, mem, author, clock.trans same.symm, le.trans le_sup_left⟩

theorem Heard.mono {M' : Memory Loc Thread Val} (heard : M.Heard v t)
    (more : ∀ l, ∀ m ∈ M.messages l, m ∈ M'.messages l) : M'.Heard v t := by
  rcases heard with none | ⟨k, m, mem, author, clock, le⟩
  · exact .inl none
  · exact .inr ⟨k, m, more k m mem, author, clock, le⟩

/-- Whoever knows of a release has all that the store told. -/
theorem Causal.knows (causal : Causal M) (u : Thread) (mem : m ∈ M.messages l)
    (author : m.author = some t) (le : m.view (.past t) ≤ M.view u (.past t)) :
    m.view ≤ M.view u := by
  by_cases mine : t = u
  · exact (causal.own l m mem u (mine ▸ author)).1
  · rcases causal.heard t u mine with none | ⟨k, n, mem', author', clock, below⟩
    · have := causal.event l m mem t author
      omega
    · exact (causal.chain l k m mem n mem' t author author' (clock ▸ le)).trans below

/-- Nobody else knows of what a thread has not released. -/
theorem Causal.past_lt_epoch (causal : Causal M) (ne : t ≠ u) :
    M.view u (.past t) < M.epoch t := by
  rcases causal.heard t u ne with none | ⟨k, m, mem, author, clock, -⟩
  · exact none ▸ causal.born t
  · exact clock ▸ (causal.own k m mem t author).2

/-- The stores to each location came in the modification order as they were executed. -/
structure Linear (M : Memory Loc Thread Val) : Prop where
  stores : ∀ l, ∀ m ∈ M.messages l, m.stamp ≤ (M.latest l).stamp
  views : ∀ t l, M.view t (.seen l) ≤ (M.latest l).stamp
  told : ∀ k, ∀ m ∈ M.messages k, ∀ l, m.view (.seen l) ≤ (M.latest l).stamp

/-- A load may find the last store. -/
theorem Linear.load_latest (linear : Linear M) (t : Thread) (l : Loc) :
    M.Coherent (.load t l (M.older l).length) :=
  ⟨M.latest l, getElem?_latest M l, linear.views t l⟩

/-- A store may come last. -/
theorem Linear.store_last (linear : Linear M) (t : Thread) (l : Loc) (value : Val) :
    M.Coherent (.store t l value ((M.latest l).stamp + 1)) := by
  refine ⟨Nat.lt_succ_of_le (linear.views t l), ?_⟩
  intro m mem
  exact (Nat.lt_succ_of_le (linear.stores l m mem)).ne

section Acquire

variable [DecidableEq Thread]

theorem view_acquire (M : Memory Loc Thread Val) (t : Thread) (m : Message Loc Thread Val) :
    (M.acquire t m).view t = M.view t ⊔ m.view := Function.update_self _ _ _

theorem view_acquire_of_ne (M : Memory Loc Thread Val) (m : Message Loc Thread Val) (ne : u ≠ t) :
    (M.acquire t m).view u = M.view u := Function.update_of_ne ne _ _

theorem view_le_acquire (M : Memory Loc Thread Val) (t : Thread) (m : Message Loc Thread Val)
    (u : Thread) : M.view u ≤ (M.acquire t m).view u := by
  by_cases mine : u = t
  · rw [mine, view_acquire]
    exact le_sup_left
  · rw [view_acquire_of_ne M m mine]

theorem Causal.acquire (causal : Causal M) (t : Thread) (mem : m ∈ M.messages l) :
    Causal (M.acquire t m) where
  first := causal.first
  place := causal.place
  event := causal.event
  chain := causal.chain
  told := causal.told
  own k n mem' u author := by
    obtain ⟨le, lt⟩ := causal.own k n mem' u author
    have grows := view_le_acquire M t m u
    exact ⟨le.trans grows, lt.trans_le (grows _)⟩
  born u := (causal.born u).trans_le (view_le_acquire M t m u _)
  heard u v ne := by
    by_cases mine : v = t
    · subst mine
      rw [view_acquire]
      exact (causal.heard u v ne).sup (causal.told l m mem u)
    · rw [view_acquire_of_ne M m mine]
      exact causal.heard u v ne

theorem Linear.acquire (linear : Linear M) (t : Thread) (mem : m ∈ M.messages l) :
    Linear (M.acquire t m) where
  stores := linear.stores
  told := linear.told
  views u k := by
    by_cases mine : u = t
    · subst mine
      rw [view_acquire]
      exact max_le (linear.views u k) (linear.told l m mem k)
    · rw [view_acquire_of_ne M m mine]
      exact linear.views u k

end Acquire

variable [DecidableEq Loc] [DecidableEq Thread]

theorem causal_init (value : Val) : Causal (init value : Memory Loc Thread Val) where
  first l m mem _ := by
    obtain rfl := List.mem_singleton.mp mem
    rfl
  place l m mem := by
    obtain rfl := List.mem_singleton.mp mem
    rfl
  own l m mem t author := by
    obtain rfl := List.mem_singleton.mp mem
    contradiction
  event l m mem t author := by
    obtain rfl := List.mem_singleton.mp mem
    contradiction
  chain l k m mem n _ t author := by
    obtain rfl := List.mem_singleton.mp mem
    contradiction
  born t := by
    simp [epoch, init]
  heard t u ne := by
    left
    simp [init, ne]
  told k m mem t := by
    obtain rfl := List.mem_singleton.mp mem
    exact .inl rfl

section Store

variable {value : Val} {stamp : Nat}

theorem messages_store (M : Memory Loc Thread Val) (t : Thread) (l : Loc) (value : Val)
    (stamp : Nat) : (M.store t l value stamp).messages l =
      M.messages l ++ [⟨stamp, value, some t, M.released t l stamp⟩] := by
  simp only [messages, store, Function.update_self]

theorem messages_store_of_ne (M : Memory Loc Thread Val) (t : Thread) (value : Val)
    (stamp : Nat) {k : Loc} (ne : k ≠ l) :
    (M.store t l value stamp).messages k = M.messages k := by
  simp only [messages, store, Function.update_of_ne ne]

/-- A store of before, or the new one. -/
theorem mem_messages_store {k : Loc} {n : Message Loc Thread Val}
    (mem : n ∈ (M.store t l value stamp).messages k) :
    n ∈ M.messages k ∨ k = l ∧ n = ⟨stamp, value, some t, M.released t l stamp⟩ := by
  by_cases here : k = l
  · subst here
    rw [messages_store] at mem
    rcases List.mem_append.mp mem with old | new
    · exact .inl old
    · exact .inr ⟨rfl, List.mem_singleton.mp new⟩
  · rw [messages_store_of_ne M t value stamp here] at mem
    exact .inl mem

theorem mem_store_of_mem {k : Loc} {n : Message Loc Thread Val} (mem : n ∈ M.messages k) :
    n ∈ (M.store t l value stamp).messages k := by
  by_cases here : k = l
  · subst here
    rw [messages_store]
    exact List.mem_append_left _ mem
  · rwa [messages_store_of_ne M t value stamp here]

theorem released_seen (M : Memory Loc Thread Val) (t : Thread) (l : Loc) (stamp : Nat) :
    M.released t l stamp (.seen l) = stamp := Function.update_self _ _ _

theorem released_past (M : Memory Loc Thread Val) (t : Thread) (l : Loc) (stamp : Nat)
    (u : Thread) : M.released t l stamp (.past u) = M.view t (.past u) := by
  simp [released]

theorem le_released (later : M.view t (.seen l) < stamp) : M.view t ≤ M.released t l stamp := by
  intro c
  by_cases here : c = .seen l
  · rw [here, released_seen]
    exact later.le
  · rw [released, Function.update_of_ne here]

theorem view_store_of_ne (M : Memory Loc Thread Val) (value : Val) (stamp : Nat) (ne : u ≠ t) :
    (M.store t l value stamp).view u = M.view u := Function.update_of_ne ne _ _

theorem epoch_store (M : Memory Loc Thread Val) (t : Thread) (l : Loc) (value : Val)
    (stamp : Nat) : (M.store t l value stamp).epoch t = M.epoch t + 1 := by
  simp only [epoch, store, Function.update_self]

theorem epoch_store_of_ne (M : Memory Loc Thread Val) (value : Val) (stamp : Nat) (ne : u ≠ t) :
    (M.store t l value stamp).epoch u = M.epoch u := by
  rw [epoch, view_store_of_ne M value stamp ne, epoch]

theorem released_le_store (M : Memory Loc Thread Val) (t : Thread) (l : Loc) (value : Val)
    (stamp : Nat) : M.released t l stamp ≤ (M.store t l value stamp).view t := by
  intro c
  by_cases own : c = .past t
  · subst own
    rw [released_past]
    exact (Nat.le_succ _).trans (epoch_store M t l value stamp).ge
  · simp only [store, Function.update_self, Function.update_of_ne own, le_refl]

theorem view_le_store (later : M.view t (.seen l) < stamp) (u : Thread) :
    M.view u ≤ (M.store t l value stamp).view u := by
  by_cases mine : u = t
  · subst mine
    exact (le_released later).trans (released_le_store M u l value stamp)
  · rw [view_store_of_ne M value stamp mine]

theorem Causal.store (causal : Causal M) (later : M.view t (.seen l) < stamp) :
    Causal (M.store t l value stamp) where
  first k m mem none := by
    rcases mem_messages_store mem with old | ⟨-, rfl⟩
    · exact causal.first k m old none
    · contradiction
  place k m mem := by
    rcases mem_messages_store mem with old | ⟨rfl, rfl⟩
    · exact causal.place k m old
    · exact released_seen M t k stamp
  own k m mem u author := by
    rcases mem_messages_store mem with old | ⟨-, rfl⟩
    · obtain ⟨le, lt⟩ := causal.own k m old u author
      have grows : M.view u ≤ (M.store t l value stamp).view u := view_le_store later u
      exact ⟨le.trans grows, lt.trans_le (grows _)⟩
    · obtain rfl := Option.some.inj author
      refine ⟨released_le_store M t l value stamp, ?_⟩
      rw [epoch_store]
      exact Nat.lt_succ_of_le (released_past M t l stamp t).le
  event k m mem u author := by
    rcases mem_messages_store mem with old | ⟨-, rfl⟩
    · exact causal.event k m old u author
    · obtain rfl := Option.some.inj author
      exact (causal.born t).trans_eq (released_past M t l stamp t).symm
  chain k k' m mem n mem' u author author' le := by
    rcases mem_messages_store mem with old | ⟨-, rfl⟩
    · rcases mem_messages_store mem' with old' | ⟨-, rfl⟩
      · exact causal.chain k k' m old n old' u author author' le
      · obtain rfl := Option.some.inj author'
        exact (causal.own k m old t author).1.trans (le_released later)
    · obtain rfl := Option.some.inj author
      rcases mem_messages_store mem' with old' | ⟨-, rfl⟩
      · have lt := (causal.own k' n old' t author').2
        have here := (released_past M t l stamp t).symm.trans_le le
        exact absurd here lt.not_ge
      · exact le_refl _
  born u := (causal.born u).trans_le (view_le_store later u _)
  heard u v ne := by
    by_cases mine : v = t
    · subst mine
      rcases causal.heard u v ne with none | ⟨k, m, mem, author, clock, le⟩
      · left
        rw [← none]
        simp [Memory.store, released, ne]
      · refine .inr ⟨k, m, mem_store_of_mem mem, author, ?_, le.trans (view_le_store later v)⟩
        rw [clock]
        simp [Memory.store, released, ne]
    · rw [view_store_of_ne M value stamp mine]
      exact (causal.heard u v ne).mono (fun _ _ => mem_store_of_mem)
  told k m mem u := by
    rcases mem_messages_store mem with old | ⟨-, rfl⟩
    · exact (causal.told k m old u).mono (fun _ _ => mem_store_of_mem)
    · by_cases mine : u = t
      · subst mine
        exact .inr ⟨l, _, by rw [messages_store]; simp, rfl, rfl, le_refl _⟩
      · rcases causal.heard u t mine with none | ⟨k, m, mem, author, clock, le⟩
        · exact .inl ((released_past M t l stamp u).trans none)
        · exact .inr ⟨k, m, mem_store_of_mem mem, author,
            clock.trans (released_past M t l stamp u).symm, le.trans (le_released later)⟩

end Store

/-- The others have seen what they had seen. -/
theorem view_next_of_ne {op : Op Loc Thread Val} (ne : u ≠ op.thread) :
    (M.next op).view u = M.view u := by
  cases op with
  | load t l n =>
      cases found : (M.messages l)[n]? with
      | none => simp only [Memory.next, found, Option.map_none, Option.getD_none]
      | some m =>
          simp only [Memory.next, found, Option.map_some, Option.getD_some]
          exact view_acquire_of_ne M m ne
  | store t l value stamp => exact view_store_of_ne M value stamp ne

/-- No store is taken back. -/
theorem getElem?_messages_next (op : Op Loc Thread Val) {n : Nat}
    (found : (M.messages l)[n]? = some m) : ((M.next op).messages l)[n]? = some m := by
  cases op with
  | load t k i =>
      cases other : (M.messages k)[i]? with
      | none => simpa only [Memory.next, other, Option.map_none, Option.getD_none] using found
      | some _ =>
          simp only [Memory.next, other, Option.map_some, Option.getD_some]
          exact found
  | store t k value stamp =>
      by_cases here : l = k
      · subst here
        rw [Memory.next, messages_store, List.getElem?_append_left]
        · exact found
        · exact (List.getElem?_eq_some_iff.mp found).1
      · rw [Memory.next, messages_store_of_ne M t value stamp here]
        exact found

theorem linear_init (value : Val) : Linear (init value : Memory Loc Thread Val) where
  stores l m mem := by
    obtain rfl := List.mem_singleton.mp mem
    exact le_refl _
  views t l := by
    simp [init]
  told k m mem l := by
    obtain rfl := List.mem_singleton.mp mem
    exact le_refl _

theorem Linear.store (linear : Linear M) (t : Thread) (l : Loc) (value : Val) :
    Linear (M.store t l value ((M.latest l).stamp + 1)) := by
  have grows : ∀ k, (M.latest k).stamp ≤
      ((M.store t l value ((M.latest l).stamp + 1)).latest k).stamp := by
    intro k
    by_cases here : k = l
    · subst here
      simp only [Memory.store, Function.update_self, Nat.le_succ]
    · simp only [Memory.store, Function.update_of_ne here, le_refl]
  have new : ∀ k, M.released t l ((M.latest l).stamp + 1) (.seen k) ≤
      ((M.store t l value ((M.latest l).stamp + 1)).latest k).stamp := by
    intro k
    by_cases here : k = l
    · subst here
      simp only [released_seen, Memory.store, Function.update_self, le_refl]
    · have same : M.released t l ((M.latest l).stamp + 1) (.seen k) = M.view t (.seen k) := by
        simp [released, here]
      exact same.le.trans ((linear.views t k).trans (grows k))
  refine ⟨?_, ?_, ?_⟩
  · intro k m mem
    rcases mem_messages_store mem with old | ⟨rfl, rfl⟩
    · exact (linear.stores k m old).trans (grows k)
    · simp only [Memory.store, Function.update_self, le_refl]
  · intro u k
    by_cases mine : u = t
    · subst mine
      have same : (M.store u l value ((M.latest l).stamp + 1)).view u (.seen k) =
          M.released u l ((M.latest l).stamp + 1) (.seen k) := by
        simp [Memory.store]
      exact same.trans_le (new k)
    · rw [view_store_of_ne M value _ mine]
      exact (linear.views u k).trans (grows k)
  · intro j m mem k
    rcases mem_messages_store mem with old | ⟨-, rfl⟩
    · exact (linear.told j m old k).trans (grows k)
    · exact new k

end Memory

end ChronoCap.Foundation.ReleaseAcquire
