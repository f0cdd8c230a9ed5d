/- module: ChronoCap/Ring/Accounting
   source: include/chrono_cap/mpsc_ring_buffer.hpp
   digest: Where every push is, at any point of any interleaving: the cursors and the drop counter
           count the pushes claimed, refused, stored and drained. -/

import ChronoCap.Ring.SlotOwnership

set_option autoImplicit false
set_option relaxedAutoImplicit false

namespace ChronoCap.Ring.Interleaving

open ChronoCap.Foundation
open ChronoCap.WireFormat

variable {cap : Capacity} {Tid : Type} [DecidableEq Tid]

/-! What a step reports. -/

/-- A push that goes on: one whose payload has room in a slot. -/
def callOf (_ : World cap Tid) : Action Tid → List (Tid × PushArgs)
  | .call p a => if a.len.toNat > kMaxPayloadBytes then [] else [(p, a)]
  | _ => []

/-- `fetch_add` on the write cursor. -/
def claimOf (w : World cap Tid) : Action Tid → List (Tid × PushArgs)
  | .produce p =>
      match w.producer p with
      | .claim a => [(p, a)]
      | _ => []
  | _ => []

/-- `fetch_add` on the drop counter. -/
def refusalOf (w : World cap Tid) : Action Tid → List Tid
  | .produce p =>
      match w.producer p with
      | .drop => [p]
      | _ => []
  | _ => []

def calls (cap : Capacity) (actions : List (Action Tid)) : List (Tid × PushArgs) :=
  (World.machine cap Tid).log callOf World.init actions

def claims (cap : Capacity) (actions : List (Action Tid)) : List (Tid × PushArgs) :=
  (World.machine cap Tid).log claimOf World.init actions

def refusals (cap : Capacity) (actions : List (Action Tid)) : List Tid :=
  (World.machine cap Tid).log refusalOf World.init actions

/-! How many threads and slots are where. -/

def ProducerPc.waiting : ProducerPc → Nat
  | .claim _ => 1
  | _ => 0

def ProducerPc.inFlight : ProducerPc → Nat
  | .check _ _ => 1
  | .drop => 1
  | .store _ _ _ => 1
  | _ => 0

def ConsumerPc.ahead : ConsumerPc → Nat
  | .advance => 1
  | _ => 0

def Slot.held (s : Slot) : Nat := bif s.ready then 1 else 0

section Counts

variable [Fintype Tid]

def World.waiting (w : World cap Tid) : Nat := ∑ p, (w.producer p).waiting

def World.inFlight (w : World cap Tid) : Nat := ∑ p, (w.producer p).inFlight

end Counts

def World.held (w : World cap Tid) : Nat := ∑ i, Slot.held (w.ring.slots i)

/-- Moving one thread changes the count by what that thread counts. -/
theorem sum_update_pc [Fintype Tid] (producer : Tid → ProducerPc) (p : Tid) (pc : ProducerPc)
    (count : ProducerPc → Nat) :
    ∑ q, count (Function.update producer p pc q) + count (producer p) =
      ∑ q, count (producer q) + count pc := by
  rw [← Ledger.sum_update_add (fun q => count (producer q)) p (count pc)]
  congr 2
  funext q
  exact Function.apply_update (fun _ => count) producer p pc q

omit [DecidableEq Tid] in
theorem held_setSlot (w : World cap Tid) (i : Fin cap.val) (s : Slot) :
    (w.setSlot i s).held + Slot.held (w.ring.slots i) = w.held + Slot.held s := by
  rw [World.held, World.held, ← Ledger.sum_update_add (fun j => Slot.held (w.ring.slots j)) i]
  congr 2
  funext j
  exact Function.apply_update (fun _ => Slot.held) w.ring.slots i s j

omit [DecidableEq Tid] in
/-- A flag that is set stays set through a store that does not clear it. -/
theorem ready_setSlot {w : World cap Tid} {i j : Fin cap.val} {s : Slot}
    (set : (w.ring.slots i).ready = true)
    (keeps : (w.ring.slots j).ready = true → s.ready = true) :
    ((w.setSlot j s).ring.slots i).ready = true := by
  by_cases same : i = j
  · subst same
    simpa [World.setSlot] using keeps set
  · simpa [World.setSlot, same] using set

omit [DecidableEq Tid] in
theorem held_clear {w : World cap Tid} {i : Fin cap.val} (set : (w.ring.slots i).ready = true) :
    (w.setSlot i { w.ring.slots i with ready := false }).held + 1 = w.held := by
  have held := held_setSlot w i { w.ring.slots i with ready := false }
  rwa [Slot.held, Slot.held, set] at held

variable [Fintype Tid]

theorem waiting_setProducer (w : World cap Tid) (p : Tid) (pc : ProducerPc) :
    (w.setProducer p pc).waiting + (w.producer p).waiting = w.waiting + pc.waiting :=
  sum_update_pc w.producer p pc ProducerPc.waiting

theorem inFlight_setProducer (w : World cap Tid) (p : Tid) (pc : ProducerPc) :
    (w.setProducer p pc).inFlight + (w.producer p).inFlight = w.inFlight + pc.inFlight :=
  sum_update_pc w.producer p pc ProducerPc.inFlight

variable {w : World cap Tid} {called claimed refused : Nat}

/-- Every push called that goes on is waiting for its index or has claimed one, and every push
that claimed one is in flight, accepted or refused. -/
structure Books (called claimed refused : Nat) (w : World cap Tid) : Prop where
  calls : called = claimed + w.waiting
  claims : claimed = w.accepted.length + refused + w.inFlight

omit [DecidableEq Tid] in
theorem books_init : Books 0 0 0 (World.init : World cap Tid) where
  calls := by simp [World.init, World.waiting, ProducerPc.waiting]
  claims := by simp [World.init, World.inFlight, ProducerPc.inFlight]

/-- Any step that moves one thread from `pc` to `pc'`. -/
theorem Books.move (inv : Books called claimed refused w) {p : Tid} {pc' : ProducerPc}
    {called' claimed' refused' : Nat} (ring : MpscRingBuffer cap) (accepted : List PushArgs)
    (owner : Fin cap.val → Nat)
    (calls : called' + claimed + (w.producer p).waiting = called + claimed' + pc'.waiting)
    (claims : claimed' + w.accepted.length + refused + (w.producer p).inFlight =
      claimed + accepted.length + refused' + pc'.inFlight) :
    Books called' claimed' refused' ({ w with ring, accepted, owner }.setProducer p pc') := by
  have waits := waiting_setProducer w p pc'
  have flies := inFlight_setProducer w p pc'
  have before := inv.calls
  have flown := inv.claims
  refine ⟨?_, ?_⟩
  · change _ = _ + (w.setProducer p pc').waiting
    omega
  · change _ = accepted.length + _ + (w.setProducer p pc').inFlight
    omega

theorem Books.produce (inv : Books called claimed refused w) (p : Tid) :
    Books called (claimed + (claimOf w (.produce p)).length)
      (refused + (refusalOf w (.produce p)).length) (w.produce p) := by
  cases pc : w.producer p with
  | idle => simpa [World.produce, claimOf, refusalOf, pc] using inv
  | claim a =>
      simp only [World.produce, claimOf, refusalOf, pc]
      exact inv.move _ _ _ (by simp [pc, ProducerPc.waiting]; omega)
        (by simp [pc, ProducerPc.inFlight]; omega)
  | check a idx =>
      simp only [World.produce, claimOf, refusalOf, pc]
      split
      · exact inv.move _ _ _ (by simp [pc, ProducerPc.waiting]) (by simp [pc, ProducerPc.inFlight])
      · exact inv.move _ _ _ (by simp [pc, ProducerPc.waiting]) (by simp [pc, ProducerPc.inFlight])
  | drop =>
      simp only [World.produce, claimOf, refusalOf, pc]
      exact inv.move _ _ _ (by simp [pc, ProducerPc.waiting])
        (by simp [pc, ProducerPc.inFlight]; omega)
  | store a idx field =>
      cases field with
      | ready =>
          simp only [World.produce, claimOf, refusalOf, pc]
          exact inv.move _ _ _ (by simp [pc, ProducerPc.waiting])
            (by simp [pc, ProducerPc.inFlight]; omega)
      | _ =>
          simp only [World.produce, claimOf, refusalOf, pc]
          exact inv.move _ _ _ (by simp [pc, ProducerPc.waiting])
            (by simp [pc, ProducerPc.inFlight])

omit [DecidableEq Tid] in
theorem Books.consume (inv : Books called claimed refused w) :
    Books called claimed refused w.consume := by
  have accepted : w.consume.accepted = w.accepted := by
    cases pc : w.consumer with
    | check out =>
        simp only [World.consume, pc]
        split <;> rfl
    | load out field =>
        cases field with
        | _ => simp only [World.consume, pc, World.setSlot]
    | _ => simp only [World.consume, pc]
  refine ⟨?_, ?_⟩
  · rw [World.waiting, consume_producer]
    exact inv.calls
  · rw [World.inFlight, consume_producer, accepted]
    exact inv.claims

theorem Books.next (inv : Books called claimed refused w) (action : Action Tid)
    (enabled : (World.machine cap Tid).Enabled w action) :
    Books (called + (callOf w action).length) (claimed + (claimOf w action).length)
      (refused + (refusalOf w action).length) ((World.machine cap Tid).next w action) := by
  cases action with
  | call p a =>
      have idle : w.producer p = .idle := enabled
      simp only [callOf, claimOf, refusalOf, World.machine]
      split
      · exact inv
      · exact inv.move w.ring w.accepted w.owner
          (by simp [idle, ProducerPc.waiting]; omega) (by simp [idle, ProducerPc.inFlight])
  | produce p => exact inv.produce p
  | request out => exact ⟨inv.calls, inv.claims⟩
  | consume => exact inv.consume

theorem books_of_run {allowed : World cap Tid → Action Tid → Prop} {actions : List (Action Tid)}
    (run : (World.machine cap Tid).Run allowed World.init actions w) :
    Books (calls cap actions).length (claims cap actions).length (refusals cap actions).length
      w := by
  induction run with
  | nil => exact books_init
  | snoc prior enabled _ ih =>
      rw [calls, claims, refusals, prior.log_snoc, prior.log_snoc, prior.log_snoc,
        List.length_append, List.length_append, List.length_append]
      exact ih.next _ enabled

/-! The cursors and the drop counter. -/

omit [Fintype Tid]

structure Cursors (claimed refused : Nat) (w : World cap Tid) : Prop where
  writeIndex : w.ring.writeIndex = UInt64.ofNat claimed
  droppedCount : w.ring.droppedCount = UInt64.ofNat refused
  readIndex : w.ring.readIndex + UInt64.ofNat w.consumer.ahead = UInt64.ofNat w.popped.length

theorem Cursors.produce (inv : Cursors claimed refused w) (p : Tid) :
    Cursors (claimed + (claimOf w (.produce p)).length)
      (refused + (refusalOf w (.produce p)).length) (w.produce p) := by
  cases pc : w.producer p with
  | idle => simpa [World.produce, claimOf, refusalOf, pc] using inv
  | claim a =>
      simp only [World.produce, claimOf, refusalOf, pc]
      refine ⟨?_, inv.droppedCount, inv.readIndex⟩
      change w.ring.writeIndex + 1 = UInt64.ofNat (claimed + 1)
      rw [inv.writeIndex, UInt64.ofNat_add]
      rfl
  | check a idx =>
      simp only [World.produce, claimOf, refusalOf, pc]
      split <;> exact ⟨inv.writeIndex, inv.droppedCount, inv.readIndex⟩
  | drop =>
      simp only [World.produce, claimOf, refusalOf, pc]
      refine ⟨inv.writeIndex, ?_, inv.readIndex⟩
      change w.ring.droppedCount + 1 = UInt64.ofNat (refused + 1)
      rw [inv.droppedCount, UInt64.ofNat_add]
      rfl
  | store a idx field =>
      cases field with
      | _ =>
          simp only [World.produce, claimOf, refusalOf, pc]
          exact ⟨inv.writeIndex, inv.droppedCount, inv.readIndex⟩

omit [DecidableEq Tid] in
theorem Cursors.consume (inv : Cursors claimed refused w) : Cursors claimed refused w.consume := by
  have read := inv.readIndex
  cases pc : w.consumer with
  | idle => simpa only [World.consume, pc] using inv
  | check out =>
      rw [pc] at read
      simp only [World.consume, pc]
      split <;> exact ⟨inv.writeIndex, inv.droppedCount, read⟩
  | load out field =>
      rw [pc] at read
      cases field with
      | ready =>
          simp only [World.consume, pc]
          refine ⟨inv.writeIndex, inv.droppedCount, ?_⟩
          rw [List.length_append, UInt64.ofNat_add, ← read]
          change _ = w.ring.readIndex + 0 + UInt64.ofNat 1
          rw [UInt64.add_zero]
          rfl
      | _ =>
          simp only [World.consume, pc]
          exact ⟨inv.writeIndex, inv.droppedCount, read⟩
  | advance =>
      rw [pc] at read
      simp only [World.consume, pc]
      exact ⟨inv.writeIndex, inv.droppedCount, (UInt64.add_zero _).trans read⟩

theorem Cursors.next (inv : Cursors claimed refused w) (action : Action Tid)
    (enabled : (World.machine cap Tid).Enabled w action) :
    Cursors (claimed + (claimOf w action).length) (refused + (refusalOf w action).length)
      ((World.machine cap Tid).next w action) := by
  cases action with
  | call p a =>
      simp only [World.machine]
      split <;> exact ⟨inv.writeIndex, inv.droppedCount, inv.readIndex⟩
  | produce p => exact inv.produce p
  | request out =>
      have read := inv.readIndex
      rw [show w.consumer = .idle from enabled] at read
      exact ⟨inv.writeIndex, inv.droppedCount, read⟩
  | consume => exact inv.consume

theorem cursors_of_run {allowed : World cap Tid → Action Tid → Prop} {actions : List (Action Tid)}
    (run : (World.machine cap Tid).Run allowed World.init actions w) :
    Cursors (claims cap actions).length (refusals cap actions).length w := by
  induction run with
  | nil => exact ⟨rfl, rfl, rfl⟩
  | snoc prior enabled _ ih =>
      rw [claims, refusals, prior.log_snoc, prior.log_snoc, List.length_append, List.length_append]
      exact ih.next _ enabled

/-! The flags that are set. -/

/-- Nobody but the consumer clears a flag. -/
def Draining (w : World cap Tid) : Prop :=
  Drains w.consumer → (w.ring.slots (cap.slot w.ring.readIndex)).ready = true

/-- A push that stores its flag sets one more, unless the flag was set already. -/
def Publishes (w v : World cap Tid) : Action Tid → Prop
  | .produce p => ∃ a idx, w.producer p = .store a idx .ready ∧
      v.accepted = w.accepted ++ [a] ∧ v.popped = w.popped ∧
        v.held + Slot.held (w.ring.slots (cap.slot idx)) = w.held + 1
  | _ => False

theorem held_produce (p : Tid) :
    ((w.produce p).accepted = w.accepted ∧ (w.produce p).popped = w.popped ∧
      (w.produce p).held = w.held) ∨ Publishes w (w.produce p) (.produce p) := by
  cases pc : w.producer p with
  | store a idx field =>
      have held := held_setSlot w (cap.slot idx) (storeField (w.ring.slots (cap.slot idx)) a field)
      cases field with
      | ready =>
          right
          refine ⟨a, idx, pc, ?_⟩
          simp only [World.produce, pc]
          exact ⟨rfl, rfl, held⟩
      | _ =>
          left
          simp only [World.produce, pc]
          exact ⟨rfl, rfl, Nat.add_right_cancel held⟩
  | check a idx =>
      left
      simp only [World.produce, pc]
      split <;> exact ⟨rfl, rfl, rfl⟩
  | _ =>
      left
      exact ⟨by simp only [World.produce, pc, World.setProducer],
        by simp only [World.produce, pc, World.setProducer],
        by simp only [World.produce, pc, World.setProducer, World.held]⟩

omit [DecidableEq Tid] in
theorem held_consume (draining : Draining w) :
    w.consume.accepted = w.accepted ∧
      w.consume.popped.length + w.consume.held = w.popped.length + w.held := by
  cases pc : w.consumer with
  | load out field =>
      cases field with
      | ready =>
          have cleared := held_clear (draining (by rw [pc]; trivial))
          have same : ∀ {held : Nat}, held + 1 = w.held →
              w.popped.length + 1 + held = w.popped.length + w.held := by
            omega
          simp only [World.consume, pc]
          rw [List.length_append, List.length_singleton]
          exact ⟨rfl, same cleared⟩
      | _ =>
          constructor <;> simp only [World.consume, pc, World.held]
  | check out =>
      simp only [World.consume, pc]
      split <;> exact ⟨rfl, rfl⟩
  | _ =>
      constructor <;> simp only [World.consume, pc, World.held]

theorem Draining.produce (draining : Draining w) (p : Tid) : Draining (w.produce p) := by
  cases pc : w.producer p with
  | store a idx field =>
      cases field with
      | ready =>
          simp only [World.produce, pc]
          exact fun drains => ready_setSlot (draining drains) (fun _ => rfl)
      | _ =>
          simp only [World.produce, pc]
          exact fun drains => ready_setSlot (draining drains) (fun set => set)
  | check a idx =>
      simp only [World.produce, pc]
      split <;> exact draining
  | _ =>
      simp only [World.produce, pc]
      exact draining

omit [DecidableEq Tid] in
theorem Draining.consume (draining : Draining w) : Draining w.consume := by
  cases pc : w.consumer with
  | idle => simpa only [World.consume, pc] using draining
  | check out =>
      simp only [World.consume, pc]
      split
      · rename_i set
        exact fun _ => set
      · exact fun h => h.elim
  | load out field =>
      have set := draining (by rw [pc]; trivial)
      cases field with
      | ready =>
          simp only [World.consume, pc]
          exact fun h => h.elim
      | _ =>
          simp only [World.consume, pc]
          exact fun _ => set
  | advance =>
      simp only [World.consume, pc]
      exact fun h => h.elim

theorem Draining.next (draining : Draining w) (action : Action Tid) :
    Draining ((World.machine cap Tid).next w action) := by
  cases action with
  | call p a =>
      simp only [World.machine]
      split <;> exact draining
  | produce p => exact draining.produce p
  | request out => exact fun h => h.elim
  | consume => exact draining.consume

/-- Every step keeps what is drained and held against what is stored, but for a push that stores
its flag. -/
theorem held_next (draining : Draining w) (action : Action Tid) :
    (((World.machine cap Tid).next w action).accepted = w.accepted ∧
      ((World.machine cap Tid).next w action).popped.length +
          ((World.machine cap Tid).next w action).held = w.popped.length + w.held) ∨
      Publishes w ((World.machine cap Tid).next w action) action := by
  cases action with
  | call p a =>
      left
      simp only [World.machine]
      split <;> exact ⟨rfl, rfl⟩
  | produce p =>
      rcases held_produce (w := w) p with ⟨accepted, popped, held⟩ | publishes
      · left
        exact ⟨accepted, by
          change (w.produce p).popped.length + (w.produce p).held = _
          rw [popped, held]⟩
      · exact .inr publishes
  | request out => exact .inl ⟨rfl, rfl⟩
  | consume => exact .inl (held_consume draining)

theorem held_le_of_run {allowed : World cap Tid → Action Tid → Prop} {actions : List (Action Tid)}
    (run : (World.machine cap Tid).Run allowed World.init actions w) :
    Draining w ∧ w.popped.length + w.held ≤ w.accepted.length := by
  induction run with
  | nil =>
      exact ⟨fun h => h.elim, by simp [World.init, World.held, MpscRingBuffer.init, Slot.held]⟩
  | @snoc _ w action _ _ _ ih =>
      obtain ⟨draining, le⟩ := ih
      refine ⟨draining.next action, ?_⟩
      rcases held_next draining action with ⟨accepted, held⟩ | publishes
      · rw [accepted, held]
        exact le
      · cases action with
        | produce p =>
            obtain ⟨a, idx, -, accepted, popped, held⟩ := publishes
            rw [accepted, popped, List.length_append, List.length_singleton]
            omega
        | _ => exact publishes.elim

/-- While no slot is shared a push finds the flag clear that it stores, so that nothing stored is
overwritten. -/
theorem held_eq_of_run {actions : List (Action Tid)}
    (run : (World.machine cap Tid).Run Unshared World.init actions w) :
    w.popped.length + w.held = w.accepted.length := by
  induction run with
  | nil => simp [World.init, World.held, MpscRingBuffer.init, Slot.held]
  | @snoc _ t action prior enabled unshared ih =>
      rcases held_next (held_le_of_run prior).1 action with ⟨accepted, held⟩ | publishes
      · rw [accepted, held]
        exact ih
      · cases action with
        | produce p =>
            obtain ⟨a, idx, pc, accepted, popped, held⟩ := publishes
            have sound := (sound_of_run prior).producers p
            rw [pc] at sound
            have clear : (t.ring.slots (cap.slot idx)).ready = false := sound.2.1
            rw [Slot.held, clear] at held
            rw [accepted, popped, List.length_append, List.length_singleton, ← ih]
            exact (Nat.add_assoc _ _ _).symm ▸ congrArg _ held
        | _ => exact publishes.elim

/-- The account of any interleaving, lapped or not: every push called is waiting for its index,
in flight, refused or accepted; the cursors and the drop counter are those numbers, modulo their
width; and no more is drained and held than was accepted. While no slot is shared, nothing
accepted is missing either. -/
theorem every_push_counted [Fintype Tid] (cap : Capacity) (actions : List (Action Tid))
    (w : World cap Tid) :
    ((World.machine cap Tid).Run Machine.Free World.init actions w →
      (calls cap actions).length = (claims cap actions).length + w.waiting ∧
      (claims cap actions).length =
        w.accepted.length + (refusals cap actions).length + w.inFlight ∧
      w.ring.writeIndex = UInt64.ofNat (claims cap actions).length ∧
      w.ring.droppedCount = UInt64.ofNat (refusals cap actions).length ∧
      w.ring.readIndex + UInt64.ofNat w.consumer.ahead = UInt64.ofNat w.popped.length ∧
      w.popped.length + w.held ≤ w.accepted.length) ∧
    ((World.machine cap Tid).Run Unshared World.init actions w →
      w.popped.length + w.held = w.accepted.length) := by
  refine ⟨?_, held_eq_of_run⟩
  intro run
  have books := books_of_run run
  have cursors := cursors_of_run run
  exact ⟨books.calls, books.claims, cursors.writeIndex, cursors.droppedCount, cursors.readIndex,
    (held_le_of_run run).2⟩

/-- Both pushes that share the slot store its flag: three are accepted, and two are held. -/
def lappedThrough : List (Action Bool) :=
  lapped ++ List.replicate 5 (.produce false) ++ List.replicate 5 (.produce true)

theorem every_push_counted_lapped :
    (claims pair lappedThrough).length =
        (lappedThrough.foldl (World.machine pair Bool).next World.init).accepted.length +
          (refusals pair lappedThrough).length +
            (lappedThrough.foldl (World.machine pair Bool).next World.init).inFlight ∧
      (lappedThrough.foldl (World.machine pair Bool).next World.init).held <
        (lappedThrough.foldl (World.machine pair Bool).next World.init).accepted.length := by
  have run : (World.machine pair Bool).Run Machine.Free World.init lappedThrough _ :=
    Machine.run_of_fires (by decide)
  have counted := (every_push_counted pair lappedThrough _).1 run
  exact ⟨counted.2.1, by decide⟩

end ChronoCap.Ring.Interleaving
