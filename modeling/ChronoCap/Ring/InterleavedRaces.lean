/- module: ChronoCap/Ring/InterleavedRaces
   source: include/chrono_cap/mpsc_ring_buffer.hpp
   digest: Every interleaving of single loads and stores is a run under the memory orders, and two
           pushes that meet in a slot there are a data race. -/

import ChronoCap.Ring.DataRaces

set_option autoImplicit false
set_option relaxedAutoImplicit false

namespace ChronoCap.Ring.WeakMemory

open ChronoCap.Foundation
open ChronoCap.Foundation.ReleaseAcquire
open ChronoCap.Ring.Interleaving (ProducerPc StoreAt Fills)
open ChronoCap.WireFormat

variable {cap : Capacity} {Tid : Type} {w : World cap Tid}

/-- The step under the memory orders at which a load finds the last store and a store comes last. -/
def inOrder (w : World cap Tid) : Interleaving.Action Tid → Action Tid
  | .call p a => .call p a
  | .produce p => .produce p <|
      match w.plain.producer p with
      | .check _ idx => (w.memory.older (cap.slot idx)).length
      | .store _ idx _ => (w.memory.latest (cap.slot idx)).stamp + 1
      | _ => 0
  | .request out => .request out
  | .consume => .consume <|
      match w.plain.consumer with
      | .check _ => (w.memory.older (front w.plain)).length
      | .load _ _ => (w.memory.latest (front w.plain)).stamp + 1
      | _ => 0

theorem plain_inOrder (w : World cap Tid) (action : Interleaving.Action Tid) :
    (inOrder w action).plain = action := by
  cases action with
  | _ => rfl

theorem consume_check {u : Interleaving.World cap Tid} {out : PoppedRecord}
    (pc : u.consumer = .check out) : u.consume = { u with
      consumer := if (u.ring.slots (front u)).ready then .load out .topicId else .idle } := by
  have moved : u.consume = if (u.ring.slots (front u)).ready then
      { u with consumer := .load out .topicId } else { u with consumer := .idle } := by
    simp only [Interleaving.World.consume, pc]
    rfl
  rw [moved]
  cases (u.ring.slots (front u)).ready with
  | _ => rfl

/-- So far all steps were such. -/
structure InOrder (w : World cap Tid) : Prop where
  linear : w.memory.Linear
  tracks : Tracks w.plain w.memory

variable [DecidableEq Tid]

theorem inOrder_init : InOrder (World.init : World cap Tid) :=
  ⟨Memory.linear_init false, fun _ => rfl⟩

/-- What a step of the interleaved ring is here. -/
def Matches (w : World cap Tid) (action : Interleaving.Action Tid) : Prop :=
  (machine cap Tid).Enabled w (inOrder w action) ∧
    ((machine cap Tid).next w (inOrder w action)).plain =
      (Interleaving.World.machine cap Tid).next w.plain action ∧
    InOrder ((machine cap Tid).next w (inOrder w action))

theorem InOrder.quiet (inv : InOrder w) {action : Interleaving.Action Tid}
    (enabled : (Interleaving.World.machine cap Tid).Enabled w.plain action)
    (op : w.op (inOrder w action) = none)
    (tracks : Tracks ((Interleaving.World.machine cap Tid).next w.plain action) w.memory) :
    Matches w action := by
  have moved : ((machine cap Tid).next w (inOrder w action)).plain =
      (Interleaving.World.machine cap Tid).next w.plain action := by
    simp only [machine, op, plain_inOrder]
  have same : ((machine cap Tid).next w (inOrder w action)).memory = w.memory := by
    simp only [machine, op, Option.elim_none]
  refine ⟨enabled_quiet op ((plain_inOrder w action).symm ▸ enabled), moved, ?_, ?_⟩
  · rw [same]
    exact inv.linear
  · rw [same, moved]
    exact tracks

theorem InOrder.load (inv : InOrder w) {action : Interleaving.Action Tid} {t : Option Tid}
    {i : Fin cap.val}
    (enabled : (Interleaving.World.machine cap Tid).Enabled w.plain action)
    (op : w.op (inOrder w action) = some (.load t i (w.memory.older i).length))
    (access : w.access (inOrder w action) = none)
    (looks : look w.plain (w.plain.ring.slots i).ready t =
      (Interleaving.World.machine cap Tid).next w.plain action)
    (same : (look w.plain (w.plain.ring.slots i).ready t).ring = w.plain.ring) :
    Matches w action := by
  have moved := next_load op access (w.memory.getElem?_latest i)
  rw [← inv.tracks i] at moved
  refine ⟨⟨(plain_inOrder w action).symm ▸ enabled, ?_⟩, ?_, ?_⟩
  · intro op' mem
    obtain rfl := Option.some.inj (op.symm.trans mem)
    exact inv.linear.load_latest t i
  · rw [moved]
    exact looks
  · rw [moved]
    refine ⟨inv.linear.acquire t (w.memory.latest_mem i), ?_⟩
    intro j
    change ((look w.plain (w.plain.ring.slots i).ready t).ring.slots j).ready = _
    rw [same]
    exact inv.tracks j

theorem InOrder.store (inv : InOrder w) {action : Interleaving.Action Tid} {t : Option Tid}
    {i : Fin cap.val} {set : Bool}
    (enabled : (Interleaving.World.machine cap Tid).Enabled w.plain action)
    (op : w.op (inOrder w action) = some (.store t i set ((w.memory.latest i).stamp + 1)))
    (access : w.access (inOrder w action) = none)
    (tracks : Tracks ((Interleaving.World.machine cap Tid).next w.plain action)
      (w.memory.store t i set ((w.memory.latest i).stamp + 1))) :
    Matches w action := by
  have moved := next_store op access
  rw [plain_inOrder] at moved
  refine ⟨⟨(plain_inOrder w action).symm ▸ enabled, ?_⟩, ?_, ?_⟩
  · intro op' mem
    obtain rfl := Option.some.inj (op.symm.trans mem)
    exact inv.linear.store_last t i set
  · rw [moved]
  · rw [moved]
    exact ⟨inv.linear.store t i set, tracks⟩

theorem InOrder.produce (inv : InOrder w) {p : Tid}
    (enabled : (Interleaving.World.machine cap Tid).Enabled w.plain (.produce p)) :
    Matches w (.produce p) := by
  cases pc : w.plain.producer p with
  | idle => exact absurd pc enabled
  | claim a =>
      apply inv.quiet enabled (by simp only [inOrder, World.op, pc])
      change Tracks (w.plain.produce p) w.memory
      simp only [Interleaving.World.produce, pc]
      exact inv.tracks
  | check a idx =>
      apply inv.load (t := some p) (i := cap.slot idx) enabled (by simp only [inOrder, World.op, pc])
        (by simp only [inOrder, World.access, pc])
      · change _ = w.plain.produce p
        simp only [look, Interleaving.World.produce, pc]
        split <;> rfl
      · simp only [look, pc]
        rfl
  | drop =>
      apply inv.quiet enabled (by simp only [inOrder, World.op, pc])
      change Tracks (w.plain.produce p) w.memory
      simp only [Interleaving.World.produce, pc]
      exact inv.tracks
  | store a idx field =>
      by_cases last : field = .ready
      · subst last
        exact inv.store (t := some p) (i := cap.slot idx) enabled
          (by simp only [inOrder, World.op, pc]) (by simp only [inOrder, World.access, pc])
          (inv.tracks.publish pc _)
      · exact inv.quiet enabled (op_store last pc _).1 (inv.tracks.store last pc)

theorem InOrder.consume (inv : InOrder w)
    (enabled : (Interleaving.World.machine cap Tid).Enabled w.plain .consume) :
    Matches w .consume := by
  cases pc : w.plain.consumer with
  | idle => exact absurd pc enabled
  | check out =>
      apply inv.load (t := none) (i := front w.plain) enabled (by simp only [inOrder, World.op, pc])
        (by simp only [inOrder, World.access, pc])
      · change _ = w.plain.consume
        rw [consume_check pc, look, pc]
      · simp only [look, pc]
  | load out field =>
      by_cases last : field = .ready
      · subst last
        exact inv.store (t := none) (i := front w.plain) enabled
          (by simp only [inOrder, World.op, pc]) (by simp only [inOrder, World.access, pc])
          (inv.tracks.giveBack pc _)
      · apply inv.quiet enabled (op_load last pc _).1
        change Tracks w.plain.consume w.memory
        rw [consume_load last pc]
        exact inv.tracks
  | advance =>
      apply inv.quiet enabled (by simp only [inOrder, World.op, pc])
      change Tracks w.plain.consume w.memory
      simp only [Interleaving.World.consume, pc]
      exact inv.tracks

theorem InOrder.step (inv : InOrder w) (action : Interleaving.Action Tid)
    (enabled : (Interleaving.World.machine cap Tid).Enabled w.plain action) :
    Matches w action := by
  cases action with
  | call p a =>
      apply inv.quiet enabled rfl
      change Tracks (if a.len.toNat > kMaxPayloadBytes then w.plain
        else w.plain.setProducer p (.claim a)) w.memory
      split <;> exact inv.tracks
  | produce p => exact inv.produce enabled
  | request out => exact inv.quiet enabled rfl inv.tracks
  | consume => exact inv.consume enabled

/-- Every run of the interleaved ring is a run under the memory orders. -/
theorem weak_of_interleaved {actions : List (Interleaving.Action Tid)}
    {u : Interleaving.World cap Tid}
    (run : (Interleaving.World.machine cap Tid).Run Machine.Free .init actions u) :
    ∃ steps w, (machine cap Tid).Run Machine.Free World.init steps w ∧
      steps.map Action.plain = actions ∧ w.plain = u ∧ InOrder w := by
  induction run with
  | nil => exact ⟨[], World.init, .nil, rfl, rfl, inOrder_init⟩
  | snoc prior enabled _ ih =>
      obtain ⟨steps, w, run, same, rfl, inv⟩ := ih
      obtain ⟨enabled', moved, inv'⟩ := inv.step _ enabled
      refine ⟨steps ++ [inOrder w _], _, run.snoc enabled' trivial, ?_, moved, inv'⟩
      rw [List.map_append, same, List.map_singleton, plain_inOrder]

/-! Two pushes in one slot. -/

/-- The run goes on with the store of a push into its slot. -/
theorem stores_on {steps : List (Action Tid)} {p : Tid} {a : PushArgs} {idx : UInt64}
    {field : StoreAt} (run : (machine cap Tid).Run Machine.Free World.init steps w)
    (pc : w.plain.producer p = .store a idx field) (data : field ≠ .ready) :
    (machine cap Tid).Run Machine.Free World.init (steps ++ [.produce p 0])
      ((machine cap Tid).next w (.produce p 0)) := by
  refine run.snoc (enabled_quiet (op_store data pc 0).1 ?_) trivial
  change w.plain.producer p ≠ .idle
  simp [pc]

/-- A push that begins to fill a slot beside one that is filling it races. -/
theorem Handed.races_beside (inv : Handed w) {p q : Tid} {i : Fin cap.val} {a : PushArgs}
    {idx : UInt64} (ne : p ≠ q) (fills : Fills i (settle (w.plain.producer p)))
    (pc : w.plain.producer q = .store a idx .topicId) (here : cap.slot idx = i) (place : Nat) :
    ¬ Ordered w (.produce q place) := by
  intro ordered
  have free := ((inv.ordered_iff_fresh _).mp ordered a idx pc).2
  exact free p ne (here ▸ fills)

/-- A push in the data section of a slot has stored something there, or is about to begin. -/
theorem fills_cases {i : Fin cap.val} {pc : ProducerPc} (fills : Fills i pc) :
    Fills i (settle pc) ∨ ∃ a idx, pc = .store a idx .topicId ∧ cap.slot idx = i := by
  cases pc with
  | store a idx field =>
      by_cases first : field = .topicId
      · exact .inr ⟨a, idx, by rw [first], fills⟩
      · rw [settle_of_begun first]
        exact .inl fills
  | _ => exact fills.elim

/-- One push is filling the slot and another one is about to begin. -/
theorem meeting_races {steps : List (Action Tid)} {p q : Tid} {i : Fin cap.val} (ne : p ≠ q)
    (run : (machine cap Tid).Run Machine.Free World.init steps w)
    (fills : Fills i (settle (w.plain.producer p)))
    (begins : ∃ a idx, w.plain.producer q = .store a idx .topicId ∧ cap.slot idx = i) :
    ¬ (machine cap Tid).Run Ordered World.init (steps ++ [.produce q 0])
      ((machine cap Tid).next w (.produce q 0)) := by
  intro ordered
  obtain ⟨v, before, -, last, -⟩ := ordered.last
  obtain rfl : v = w := before.foldl.symm.trans run.foldl
  obtain ⟨a, idx, pc, here⟩ := begins
  exact (handed_of_run (fresh_of_ordered.mp before)).races_beside ne fills pc here 0 last

/-- Whenever an interleaving lets two pushes into the data section of one slot, the same steps with
at most two more are a run under the memory orders that has a data race. -/
theorem shared_slot_races (actions : List (Interleaving.Action Tid))
    (u : Interleaving.World cap Tid) (p q : Tid) (i : Fin cap.val)
    (run : (Interleaving.World.machine cap Tid).Run Machine.Free .init actions u) (ne : p ≠ q)
    (fills : Fills i (u.producer p)) (fills' : Fills i (u.producer q)) :
    ∃ steps w, ∃ more : List (Interleaving.Action Tid), more.length ≤ 2 ∧
      steps.map Action.plain = actions ++ more ∧
      (machine cap Tid).Run Machine.Free World.init steps w ∧
      ¬ (machine cap Tid).Run Ordered World.init steps w := by
  obtain ⟨steps, w, weak, same, rfl, -⟩ := weak_of_interleaved run
  by_cases ordered : (machine cap Tid).Run Ordered World.init steps w
  · have inv := handed_of_run (fresh_of_ordered.mp ordered)
    rcases fills_cases fills with filling | ⟨a, idx, pc, here⟩
    · rcases fills_cases fills' with filling' | ⟨b, idx', pc', here'⟩
      · exact absurd (inv.sound.apart p q i ne filling) (not_not_intro filling')
      · refine ⟨_, _, [.produce q], by simp, ?_, stores_on weak pc' (by simp), ?_⟩
        · simp [same, Action.plain]
        · exact meeting_races ne weak filling ⟨b, idx', pc', here'⟩
    · rcases fills_cases fills' with filling' | ⟨b, idx', pc', here'⟩
      · refine ⟨_, _, [.produce p], by simp, ?_, stores_on weak pc (by simp), ?_⟩
        · simp [same, Action.plain]
        · exact meeting_races ne.symm weak filling' ⟨a, idx, pc, here⟩
      · -- both are about to begin
        have first := stores_on weak pc (by simp)
        have moved : ((machine cap Tid).next w (.produce p 0)).plain = w.plain.produce p := by
          rw [next_access (op_store (by simp) pc 0).1 (op_store (by simp) pc 0).2]
          rfl
        have filling : Fills i (settle
            (((machine cap Tid).next w (.produce p 0)).plain.producer p)) := by
          rw [moved, produce_store (by simp) pc]
          simp only [Interleaving.World.setProducer, Function.update_self]
          exact here
        have waits : ((machine cap Tid).next w (.produce p 0)).plain.producer q =
            .store b idx' .topicId := by
          rw [moved, produce_store (by simp) pc]
          simpa [Interleaving.World.setProducer, Interleaving.World.setSlot, ne.symm] using pc'
        refine ⟨_, _, [.produce p, .produce q], by simp, ?_, stores_on first waits (by simp), ?_⟩
        · simp [same, Action.plain]
        · exact meeting_races ne first filling ⟨b, idx', waits, here'⟩
  · exact ⟨steps, w, [], by simp, by simp [same], weak, ordered⟩

/-- A stalled push and the one that laps it. -/
theorem shared_slot_races_lapped :
    ∃ steps w, ∃ more : List (Interleaving.Action Bool), more.length ≤ 2 ∧
      steps.map Action.plain = Interleaving.lapped ++ more ∧
      (machine pair Bool).Run Machine.Free World.init steps w ∧
      ¬ (machine pair Bool).Run Ordered World.init steps w :=
  shared_slot_races Interleaving.lapped _ false true (pair.slot 0)
    (Machine.run_of_fires (by decide)) (by decide) rfl rfl

end ChronoCap.Ring.WeakMemory
