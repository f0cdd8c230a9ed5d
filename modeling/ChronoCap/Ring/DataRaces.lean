/- module: ChronoCap/Ring/DataRaces
   source: include/chrono_cap/mpsc_ring_buffer.hpp
   digest: When a run of the ring is free of data races: with one producer always, with several
           exactly if no push begins to fill a slot whose last store it has not seen. -/

import ChronoCap.Ring.WeakMemory

set_option autoImplicit false
set_option relaxedAutoImplicit false

namespace ChronoCap.Ring.WeakMemory

open ChronoCap.Foundation
open ChronoCap.Foundation.ReleaseAcquire
open ChronoCap.WireFormat

variable {cap : Capacity} {Tid : Type} {w : World cap Tid}

/-- Each pop drained a push that returned true, whole, and no two pops the same. -/
def Delivers (w : Interleaving.World cap Tid) : Prop :=
  (∀ x ∈ w.popped, ∃ a, w.accepted[x.1]? = some a ∧ Ledger.Agrees x.2 a) ∧
    (w.popped.map Prod.fst).Nodup

theorem Handed.delivers (inv : Handed w) : Delivers w.plain := ⟨inv.sound.drained, inv.sound.once⟩

/-- The only thread that waits for a clear flag finds the last store or none it waits for. -/
theorem Handed.fresh_of_subsingleton [Subsingleton Tid] (inv : Handed w) (action : Action Tid) :
    Fresh w action := by
  cases action with
  | produce p place =>
      intro a idx pc
      have enters := (entered_iff_slot pc (cap.slot idx)).mpr rfl
      obtain ⟨m, found, clear⟩ := inv.guarded.found _ _ enters
      have sole : ∀ t : Option Tid, t.isNone = (some p).isNone → t = some p := by
        intro t same
        cases t with
        | none => contradiction
        | some q => exact congrArg some (Subsingleton.elim q p)
      have last := inv.guarded.latest_of_sole sole found.mem clear found.stamp.ge
      exact ⟨last ▸ found.stamp.le, fun q ne => absurd (Subsingleton.elim q p) ne⟩
  | _ => trivial

theorem op_produce {q : Tid} {place : Nat} {op : ReleaseAcquire.Op (Fin cap.val) (Option Tid) Bool}
    (mem : op ∈ w.op (.produce q place)) : op.thread = some q := by
  cases pc : w.plain.producer q with
  | store a idx field =>
      cases field with
      | ready =>
          obtain rfl := Option.some.inj ((op_publish pc place).symm.trans mem)
          rfl
      | _ => simp [World.op, pc] at mem
  | check a idx =>
      obtain rfl := Option.some.inj ((op_check pc place).symm.trans mem)
      rfl
  | _ => simp [World.op, pc] at mem

theorem op_consume {place : Nat} {op : ReleaseAcquire.Op (Fin cap.val) (Option Tid) Bool}
    (mem : op ∈ w.op (.consume place)) : op.thread = none := by
  cases pc : w.plain.consumer with
  | load out field =>
      cases field with
      | ready =>
          simp only [World.op, pc, Option.mem_def, Option.some.injEq] at mem
          rw [← mem]
          rfl
      | _ => simp [World.op, pc] at mem
  | check out =>
      simp only [World.op, pc, Option.mem_def, Option.some.injEq] at mem
      rw [← mem]
      rfl
  | _ => simp [World.op, pc] at mem

variable [DecidableEq Tid]

theorem handed_of_run {actions : List (Action Tid)}
    (run : (machine cap Tid).Run Fresh World.init actions w) : Handed w :=
  run.invariant handed_init fun _ _ inv enabled fresh => inv.next enabled fresh

theorem fresh_of_ordered {actions : List (Action Tid)} :
    (machine cap Tid).Run Ordered World.init actions w ↔
      (machine cap Tid).Run Fresh World.init actions w :=
  Machine.Run.iff_of_kept handed_init (fun _ _ inv enabled fresh => inv.next enabled fresh)
    fun _ action inv _ => inv.ordered_iff_fresh action

/-- A run has no data race exactly if each push that begins to fill a slot has seen the last store
to its flag and no other push is filling it; then every pop drains one push, whole and once. -/
theorem race_free_iff (actions : List (Action Tid)) (w : World cap Tid) :
    ((machine cap Tid).Run Ordered World.init actions w ↔
      (machine cap Tid).Run Fresh World.init actions w) ∧
    ((machine cap Tid).Run Ordered World.init actions w → Delivers w.plain) :=
  ⟨fresh_of_ordered, fun run => (handed_of_run (fresh_of_ordered.mp run)).delivers⟩

/-! One producer. -/

/-- With one producer thread no run has a data race, whichever stores the threads find. -/
theorem one_producer [Subsingleton Tid] (actions : List (Action Tid)) (w : World cap Tid)
    (run : (machine cap Tid).Run Machine.Free World.init actions w) :
    (machine cap Tid).Run Ordered World.init actions w ∧ Delivers w.plain := by
  have fresh : (machine cap Tid).Run Fresh World.init actions w := by
    induction run with
    | nil => exact .nil
    | snoc prior enabled _ ih =>
        exact ih.snoc enabled ((handed_of_run ih).fresh_of_subsingleton _)
  exact ⟨fresh_of_ordered.mpr fresh, (handed_of_run fresh).delivers⟩

/-- A push and its pop, where each load finds the last store. -/
def roundTrip : List (Action Unit) :=
  [.call () (stamped 7)] ++ [0, 0, 0, 0, 0, 0, 1].map (.produce ()) ++ [.request {}] ++
    [1, 0, 0, 0, 0, 0, 2, 0].map .consume

theorem one_producer_roundTrip :
    (roundTrip.foldl (machine pair Unit).next World.init).plain.popped.map
        (fun x => x.2.stampNs) = [7] ∧
      (machine pair Unit).Run Ordered World.init roundTrip
        (roundTrip.foldl (machine pair Unit).next World.init) :=
  ⟨by decide, (one_producer roundTrip _ (Machine.run_of_fires (by decide))).1⟩

/-! A thread that pushes for the first time. -/

section Newcomer

variable {p : Tid}

/-- The steps of the others do not change what a producer has seen. -/
theorem view_next_of_other {action : Action Tid} (other : ∀ place, action ≠ .produce p place) :
    ((machine cap Tid).next w action).memory.view (some p) = w.memory.view (some p) := by
  change ((w.op action).elim w.memory w.memory.next).view (some p) = _
  cases op : w.op action with
  | none => rfl
  | some op' =>
      apply Memory.view_next_of_ne
      cases action with
      | call q a => contradiction
      | request out => contradiction
      | produce q place =>
          rw [op_produce op]
          intro same
          obtain rfl := Option.some.inj same
          exact other place rfl
      | consume place =>
          rw [op_consume op]
          exact Option.some_ne_none p

theorem messages_next {i : Fin cap.val} {n : Nat}
    {m : Message (Fin cap.val) (Option Tid) Bool} (found : (w.memory.messages i)[n]? = some m)
    (action : Action Tid) :
    ((((machine cap Tid).next w action).memory).messages i)[n]? = some m := by
  change (((w.op action).elim w.memory w.memory.next).messages i)[n]? = some m
  cases w.op action with
  | none => exact found
  | some op => exact Memory.getElem?_messages_next op found

/-- What a thread that has not pushed yet may find of a flag. -/
theorem newcomer {allowed : World cap Tid → Action Tid → Prop} {actions : List (Action Tid)}
    (run : (machine cap Tid).Run allowed World.init actions w)
    (quiet : ∀ place, .produce p place ∉ actions) :
    w.memory.view (some p) = (World.init : World cap Tid).memory.view (some p) ∧
      ∀ i, (w.memory.messages i)[0]? = some ⟨0, false, none, fun _ => 0⟩ := by
  induction run with
  | nil => exact ⟨rfl, fun _ => rfl⟩
  | snoc _ _ _ ih =>
      obtain ⟨view, first⟩ := ih fun place mem => quiet place (List.mem_append_left _ mem)
      refine ⟨(view_next_of_other fun place same => quiet place ?_).trans view,
        fun i => messages_next (first i) _⟩
      rw [same]
      simp

section Begins

variable {a : PushArgs} {idx : UInt64}

theorem next_call (fits : a.len.toNat ≤ kMaxPayloadBytes) :
    (machine cap Tid).next w (.call p a) =
      { w with plain := w.plain.setProducer p (.claim a) } := by
  rw [next_quiet rfl rfl]
  have moved : (Interleaving.World.machine cap Tid).next w.plain (.call p a) =
      w.plain.setProducer p (.claim a) := if_neg (Nat.not_lt.mpr fits)
  exact congrArg (fun u => { w with plain := u }) moved

theorem next_claim (pc : w.plain.producer p = .claim a) (place : Nat) :
    ((machine cap Tid).next w (.produce p place)).plain.producer p =
        .check a w.plain.ring.writeIndex ∧
      ((machine cap Tid).next w (.produce p place)).memory = w.memory := by
  rw [next_quiet (by simp only [World.op, pc]) (by simp only [World.access, pc])]
  refine ⟨?_, rfl⟩
  change (w.plain.produce p).producer p = _
  simp only [Interleaving.World.produce, pc, Interleaving.World.setProducer, Function.update_self]

theorem next_clear {place : Nat} {m : Message (Fin cap.val) (Option Tid) Bool}
    (pc : w.plain.producer p = .check a idx)
    (found : (w.memory.messages (cap.slot idx))[place]? = some m) (clear : m.value = false) :
    ((machine cap Tid).next w (.produce p place)).plain.producer p = .store a idx .topicId ∧
      ((machine cap Tid).next w (.produce p place)).memory = w.memory.acquire (some p) m := by
  rw [next_load (op_check pc place) (by simp only [World.access, pc]) found]
  refine ⟨?_, rfl⟩
  simp only [look, pc, clear, Bool.false_eq_true, if_false, Interleaving.World.setProducer,
    Function.update_self]

/-- A step at which no flag and no data is accessed can always be made. -/
theorem enabled_quiet {action : Action Tid} (op : w.op action = none)
    (enabled : (Interleaving.World.machine cap Tid).Enabled w.plain action.plain) :
    (machine cap Tid).Enabled w action :=
  ⟨enabled, fun _ mem => nomatch op.symm.trans mem⟩

end Begins

/-- A thread pushes for the first time, into a slot whose flag has been stored before. Its load may
find the flag as it was at the start, and then its first store races, however long ago the last pop
of that slot was. -/
theorem first_push_may_race (p : Tid) (a : PushArgs) (actions : List (Action Tid))
    (w : World cap Tid) (run : (machine cap Tid).Run Ordered World.init actions w)
    (quiet : ∀ place, .produce p place ∉ actions) (idle : w.plain.producer p = .idle)
    (fits : a.len.toNat ≤ kMaxPayloadBytes)
    (used : w.memory.older (cap.slot w.plain.ring.writeIndex) ≠ []) :
    ∃ v, (machine cap Tid).Run Ordered World.init
        (actions ++ [.call p a, .produce p 0, .produce p 0]) v ∧
      ∀ place, (machine cap Tid).Enabled v (.produce p place) ∧ ¬ Ordered v (.produce p place) := by
  obtain ⟨view, first⟩ := newcomer run quiet
  have inv := handed_of_run (fresh_of_ordered.mp run)
  -- it calls and claims the slot
  have called := next_call (w := w) (p := p) fits
  have calls : (machine cap Tid).Enabled w (.call p a) := enabled_quiet rfl idle
  have run₁ := run.snoc calls (ordered_of_no_access rfl)
  rw [called] at run₁
  have claims : (w.plain.setProducer p (.claim a)).producer p = .claim a :=
    Function.update_self p _ _
  have busy : ∀ {u : Interleaving.World cap Tid}, u.producer p ≠ .idle →
      (Interleaving.World.machine cap Tid).Enabled u (.produce p) := id
  have run₂ := run₁.snoc (a := .produce p 0)
    (enabled_quiet (by simp only [World.op, claims]) (busy (by simp [claims])))
    (ordered_of_no_access (by simp only [World.access, claims]))
  obtain ⟨checks, memory₂⟩ :=
    next_claim (w := { w with plain := w.plain.setProducer p (.claim a) }) claims 0
  generalize (machine cap Tid).next { w with plain := w.plain.setProducer p (.claim a) }
    (.produce p 0) = w₂ at run₂ checks memory₂
  -- it finds the flag as it was at the start
  have index : (w.plain.setProducer p (.claim a)).ring.writeIndex = w.plain.ring.writeIndex := rfl
  rw [index] at checks
  generalize slot : cap.slot w.plain.ring.writeIndex = i at used
  have oldest := first i
  have found : (w₂.memory.messages i)[0]? = some ⟨0, false, none, fun _ => 0⟩ := memory₂ ▸ oldest
  have unseen : w₂.memory.view (some p) (.seen i) = 0 := by
    rw [memory₂, view]
    simp [World.init, Memory.init]
  have loads : w₂.op (.produce p 0) = some (.load (some p) i 0) := slot ▸ op_check checks 0
  have run₃ := run₂.snoc (a := .produce p 0)
    ⟨busy (by simp [checks]), by
      intro op mem
      obtain rfl := Option.some.inj (loads.symm.trans mem)
      exact ⟨_, found, unseen.le⟩⟩
    (ordered_of_no_access (by simp only [World.access, checks]))
  obtain ⟨begins, memory₃⟩ := next_clear checks (slot.symm ▸ found) rfl
  generalize (machine cap Tid).next w₂ (.produce p 0) = w₃ at run₃ begins memory₃
  refine ⟨w₃, by simpa using run₃, fun place => ?_⟩
  obtain ⟨op, access⟩ := op_store (by simp) begins place
  refine ⟨enabled_quiet op (busy (by simp [begins])), ?_⟩
  -- but another thread has stored it since
  have old : (⟨0, false, none, fun _ => 0⟩ : Message (Fin cap.val) (Option Tid) Bool) ∈
      w.memory.older i := by
    rw [Memory.messages, List.getElem?_append_left (List.length_pos_iff.mpr used)] at oldest
    exact List.mem_of_getElem? oldest
  have later := inv.guarded.newest i _ old
  intro ordered
  have fresh := ((handed_of_run (fresh_of_ordered.mp run₃)).ordered_iff_fresh _).mp ordered
  have seen := (fresh a _ begins).1
  rw [slot, memory₃, Memory.view_acquire, Pi.sup_apply, unseen] at seen
  change (w₂.memory.latest i).stamp ≤ 0 at seen
  rw [memory₂] at seen
  exact absurd later (Nat.not_lt.mpr seen)

/-- One thread fills both slots of the ring, and the consumer drains the first one. -/
def usedByOne : List (Action Bool) :=
  [.call false (stamped 1)] ++ [0, 0, 0, 0, 0, 0, 1].map (.produce false) ++
    [.call false (stamped 2)] ++ [0, 0, 0, 0, 0, 0, 1].map (.produce false) ++
    [.request {}] ++ [1, 0, 0, 0, 0, 0, 2, 0].map .consume

theorem first_push_may_race_pair :
    ∃ v, (machine pair Bool).Run Ordered World.init
        (usedByOne ++ [.call true (stamped 3), .produce true 0, .produce true 0]) v ∧
      ∀ place, (machine pair Bool).Enabled v (.produce true place) ∧
        ¬ Ordered v (.produce true place) :=
  first_push_may_race true (stamped 3) usedByOne _ (Machine.run_of_fires (by decide))
    (by simp [usedByOne]) (by decide) (by decide) (by decide)

end Newcomer

end ChronoCap.Ring.WeakMemory
