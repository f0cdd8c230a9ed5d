/- module: ChronoCap/Ring/WaitFreedom
   source: include/chrono_cap/mpsc_ring_buffer.hpp
   digest: A push and a pop end after a bounded number of their own steps, whatever the other
           threads do in between. -/

import ChronoCap.Ring.SlotOwnership

set_option autoImplicit false
set_option relaxedAutoImplicit false

namespace ChronoCap.Ring.Interleaving

open ChronoCap.Foundation
open ChronoCap.WireFormat

/-! The steps a thread has left. -/

def StoreAt.left (len : Nat) : StoreAt → Nat
  | .topicId => len + 5
  | .stampNs => len + 4
  | .seq => len + 3
  | .payloadLen => len + 2
  | .byte i => if i < len then len - i + 1 else 2
  | .ready => 1

def ProducerPc.left : ProducerPc → Nat
  | .idle => 0
  | .claim a => a.len.toNat + 7
  | .check a _ => a.len.toNat + 6
  | .drop => 1
  | .store a _ field => field.left a.len.toNat

/-- Until the length is loaded for `memcpy` the slot could hold any length that fits. -/
def LoadAt.left : LoadAt → Nat
  | .topicId => kMaxPayloadBytes + 7
  | .stampNs => kMaxPayloadBytes + 6
  | .seq => kMaxPayloadBytes + 5
  | .payloadLen => kMaxPayloadBytes + 4
  | .count => kMaxPayloadBytes + 3
  | .byte n i => if i < n then n - i + 2 else 3
  | .ready => 2

def ConsumerPc.left : ConsumerPc → Nat
  | .idle => 0
  | .check _ => kMaxPayloadBytes + 8
  | .load _ field => field.left
  | .advance => 1

theorem StoreAt.left_pos (len : Nat) (field : StoreAt) : 0 < field.left len := by
  cases field with
  | byte i =>
      change 0 < if i < len then len - i + 1 else 2
      split <;> exact Nat.succ_pos _
  | _ => exact Nat.succ_pos _

theorem LoadAt.left_pos (field : LoadAt) : 0 < field.left := by
  cases field with
  | byte n i =>
      change 0 < if i < n then n - i + 2 else 3
      split <;> exact Nat.succ_pos _
  | _ => exact Nat.succ_pos _

/-- Nothing is left to do exactly for a thread that is in no call. -/
theorem ProducerPc.left_eq_zero {pc : ProducerPc} : pc.left = 0 ↔ pc = .idle := by
  cases pc with
  | idle => exact iff_of_true rfl rfl
  | store a idx field => simpa [ProducerPc.left] using (field.left_pos a.len.toNat).ne'
  | _ => simp [ProducerPc.left]

theorem ConsumerPc.left_eq_zero {pc : ConsumerPc} : pc.left = 0 ↔ pc = .idle := by
  cases pc with
  | idle => exact iff_of_true rfl rfl
  | load out field => simpa [ConsumerPc.left] using field.left_pos.ne'
  | _ => simp [ConsumerPc.left]

theorem StoreAt.left_copy {len i : Nat} (le : i ≤ len) :
    (StoreAt.copy len i).left len = len - i + 1 := by
  unfold StoreAt.copy
  split
  · rename_i lt
    rw [StoreAt.left, if_pos lt]
  · rw [StoreAt.left]
    omega

theorem StoreAt.left_next (a : PushArgs) {field : StoreAt} (data : field ≠ .ready) :
    (field.next a).left a.len.toNat < field.left a.len.toNat := by
  cases field with
  | payloadLen =>
      rw [StoreAt.next, StoreAt.left_copy (Nat.zero_le _), StoreAt.left]
      omega
  | byte i =>
      rw [StoreAt.next]
      by_cases lt : i < a.len.toNat
      · rw [StoreAt.left_copy lt, StoreAt.left, if_pos lt]
        omega
      · rw [StoreAt.copy, if_neg (by omega), StoreAt.left, StoreAt.left, if_neg lt]
        decide
  | ready => exact absurd rfl data
  | _ => exact Nat.lt_succ_self _

theorem LoadAt.left_copy {n i : Nat} (le : i ≤ n) : (LoadAt.copy n i).left = n - i + 2 := by
  unfold LoadAt.copy
  split
  · rename_i lt
    rw [LoadAt.left, if_pos lt]
  · rw [LoadAt.left]
    omega

theorem LoadAt.left_next {s : Slot} (fits : s.payloadLen.toNat ≤ kMaxPayloadBytes)
    {field : LoadAt} (data : field ≠ .ready) : (field.next s).left < field.left := by
  cases field with
  | count =>
      rw [LoadAt.next, LoadAt.left_copy (Nat.zero_le _), LoadAt.left]
      omega
  | byte n i =>
      rw [LoadAt.next]
      by_cases lt : i < n
      · rw [LoadAt.left_copy lt, LoadAt.left, if_pos lt]
        omega
      · rw [LoadAt.copy, if_neg (by omega), LoadAt.left, LoadAt.left, if_neg lt]
        decide
  | ready => exact absurd rfl data
  | _ => exact Nat.lt_succ_self _

/-! Every length a slot can hold fits. -/

variable {cap : Capacity} {Tid : Type} {w : World cap Tid}

def ProducerPc.Fitting : ProducerPc → Prop
  | .claim a => Fits a
  | .check a _ => Fits a
  | .store a _ _ => Fits a
  | _ => True

/-- No condition on the steps of the run is needed for this. -/
structure Sized (w : World cap Tid) : Prop where
  producers : ∀ p, (w.producer p).Fitting
  slots : ∀ i, (w.ring.slots i).payloadLen.toNat ≤ kMaxPayloadBytes

theorem sized_init : Sized (World.init : World cap Tid) where
  producers _ := trivial
  slots _ := Nat.zero_le _

section Steps

variable [DecidableEq Tid]

theorem Sized.setProducer (inv : Sized w) (p : Tid) {pc : ProducerPc} (fits : pc.Fitting) :
    Sized (w.setProducer p pc) where
  producers q := by
    by_cases same : q = p
    · subst same
      simpa [World.setProducer] using fits
    · simpa [World.setProducer, same] using inv.producers q
  slots := inv.slots

omit [DecidableEq Tid] in
theorem Sized.setSlot (inv : Sized w) (i : Fin cap.val) {s : Slot}
    (fits : s.payloadLen.toNat ≤ kMaxPayloadBytes) : Sized (w.setSlot i s) where
  producers := inv.producers
  slots j := by
    by_cases same : j = i
    · subst same
      simpa [World.setSlot] using fits
    · simpa [World.setSlot, same] using inv.slots j

theorem payloadLen_storeField {s : Slot} {a : PushArgs} (fits : Fits a)
    (small : s.payloadLen.toNat ≤ kMaxPayloadBytes) (field : StoreAt) :
    (storeField s a field).payloadLen.toNat ≤ kMaxPayloadBytes := by
  cases field with
  | payloadLen => exact fits
  | _ => exact small

theorem Sized.produce (inv : Sized w) (p : Tid) : Sized (w.produce p) := by
  have fits := inv.producers p
  cases pc : w.producer p with
  | idle => simpa only [World.produce, pc] using inv
  | claim a =>
      rw [pc] at fits
      have moved : Sized { w with ring := { w.ring with writeIndex := w.ring.writeIndex + 1 } } :=
        ⟨inv.producers, inv.slots⟩
      simp only [World.produce, pc]
      exact moved.setProducer p fits
  | check a idx =>
      rw [pc] at fits
      simp only [World.produce, pc]
      split
      · exact inv.setProducer p trivial
      · exact inv.setProducer p fits
  | drop =>
      have counted : Sized
          { w with ring := { w.ring with droppedCount := w.ring.droppedCount + 1 } } :=
        ⟨inv.producers, inv.slots⟩
      simp only [World.produce, pc]
      exact counted.setProducer p trivial
  | store a idx field =>
      rw [pc] at fits
      have stored := inv.setSlot (cap.slot idx)
        (payloadLen_storeField fits (inv.slots (cap.slot idx)) field)
      cases field with
      | ready =>
          have logged : Sized { w.setSlot (cap.slot idx)
              (storeField (w.ring.slots (cap.slot idx)) a .ready) with
                accepted := w.accepted ++ [a]
                owner := Function.update w.owner (cap.slot idx) w.accepted.length } :=
            ⟨stored.producers, stored.slots⟩
          simp only [World.produce, pc]
          exact logged.setProducer p trivial
      | _ =>
          simp only [World.produce, pc]
          exact stored.setProducer p fits

omit [DecidableEq Tid] in
theorem Sized.consume (inv : Sized w) : Sized w.consume := by
  cases pc : w.consumer with
  | idle => simpa only [World.consume, pc] using inv
  | check out =>
      simp only [World.consume, pc]
      split
      · exact ⟨inv.producers, inv.slots⟩
      · exact ⟨inv.producers, inv.slots⟩
  | load out field =>
      cases field with
      | ready =>
          have cleared := inv.setSlot (cap.slot w.ring.readIndex)
            (s := { w.ring.slots (cap.slot w.ring.readIndex) with ready := false })
            (inv.slots (cap.slot w.ring.readIndex))
          simp only [World.consume, pc]
          exact ⟨cleared.producers, cleared.slots⟩
      | _ =>
          simp only [World.consume, pc]
          exact ⟨inv.producers, inv.slots⟩
  | advance =>
      simp only [World.consume, pc]
      exact ⟨inv.producers, inv.slots⟩

theorem Sized.next (inv : Sized w) (action : Action Tid) :
    Sized ((World.machine cap Tid).next w action) := by
  cases action with
  | call p a =>
      change Sized (if a.len.toNat > kMaxPayloadBytes then w else w.setProducer p (.claim a))
      split
      · exact inv
      · rename_i fits
        exact inv.setProducer p (Nat.le_of_not_lt fits)
  | produce p => exact inv.produce p
  | request out => exact ⟨inv.producers, inv.slots⟩
  | consume => exact inv.consume

/-! What a step does to the thread that makes it, and to the others. -/

theorem producer_produce_of_ne {p q : Tid} (other : q ≠ p) :
    (w.produce p).producer q = w.producer q := by
  cases pc : w.producer p with
  | idle => simp only [World.produce, pc]
  | check a idx =>
      simp only [World.produce, pc]
      split <;> simp [World.setProducer, other]
  | store a idx field =>
      cases field with
      | _ => simp [World.produce, pc, World.setProducer, World.setSlot, other]
  | _ => simp [World.produce, pc, World.setProducer, other]

theorem consumer_produce (p : Tid) : (w.produce p).consumer = w.consumer := by
  cases pc : w.producer p with
  | idle => simp only [World.produce, pc]
  | check a idx =>
      simp only [World.produce, pc]
      split <;> rfl
  | store a idx field =>
      cases field with
      | _ => simp only [World.produce, pc, World.setProducer, World.setSlot]
  | _ => simp only [World.produce, pc, World.setProducer]

/-- Each step of a push leaves it fewer. -/
theorem left_produce {p : Tid} (busy : w.producer p ≠ .idle) :
    ((w.produce p).producer p).left < (w.producer p).left := by
  cases pc : w.producer p with
  | idle => exact absurd pc busy
  | claim a => simp [World.produce, pc, World.setProducer, ProducerPc.left]
  | check a idx =>
      simp only [World.produce, pc]
      split
      · simp [World.setProducer, ProducerPc.left]
      · simp [World.setProducer, ProducerPc.left, StoreAt.left]
  | drop => simp [World.produce, pc, World.setProducer, ProducerPc.left]
  | store a idx field =>
      cases field with
      | ready => simp [World.produce, pc, World.setProducer, ProducerPc.left, StoreAt.left]
      | _ =>
          simp only [World.produce, pc, World.setProducer, Function.update_self, ProducerPc.left]
          exact StoreAt.left_next a (by simp)

omit [DecidableEq Tid] in
theorem left_consume (inv : Sized w) (busy : w.consumer ≠ .idle) :
    w.consume.consumer.left < w.consumer.left := by
  have fits := inv.slots (cap.slot w.ring.readIndex)
  cases pc : w.consumer with
  | idle => exact absurd pc busy
  | check out =>
      simp only [World.consume, pc]
      split
      · simp [ConsumerPc.left, LoadAt.left]
      · simp [ConsumerPc.left]
  | load out field =>
      cases field with
      | ready => simp [World.consume, pc, ConsumerPc.left, LoadAt.left]
      | _ =>
          simp only [World.consume, pc, ConsumerPc.left]
          exact LoadAt.left_next fits (by simp)
  | advance => simp [World.consume, pc, ConsumerPc.left]

end Steps

/-! The account of a whole run. -/

variable [DecidableEq Tid]

/-- Steps that producer `p` makes. -/
def pushStep (p : Tid) : Action Tid → Nat
  | .produce q => if q = p then 1 else 0
  | _ => 0

/-- The steps a call of producer `p` may take: seven and one for each payload byte, or none for a
payload that is refused at once. -/
def pushAllowance (p : Tid) : Action Tid → Nat
  | .call q a => if q = p ∧ a.len.toNat ≤ kMaxPayloadBytes then a.len.toNat + 7 else 0
  | _ => 0

def popStep : Action Tid → Nat
  | .consume => 1
  | _ => 0

def popAllowance : Action Tid → Nat
  | .request _ => kMaxPayloadBytes + 8
  | _ => 0

theorem pays_push (p : Tid) (action : Action Tid)
    (enabled : (World.machine cap Tid).Enabled w action) :
    pushStep p action + (((World.machine cap Tid).next w action).producer p).left ≤
      (w.producer p).left + pushAllowance p action := by
  cases action with
  | call q a =>
      change 0 + ((if a.len.toNat > kMaxPayloadBytes then w
        else w.setProducer q (.claim a)).producer p).left ≤ _ + pushAllowance p (.call q a)
      split
      · exact Nat.zero_add _ ▸ Nat.le_add_right _ _
      · rename_i fits
        by_cases same : p = q
        · subst same
          simp [World.setProducer, pushAllowance, Nat.le_of_not_lt fits, ProducerPc.left]
        · simp [World.setProducer, same]
  | produce q =>
      change pushStep p (.produce q) + ((w.produce q).producer p).left ≤ _
      by_cases same : p = q
      · subst same
        have less := left_produce enabled
        simp only [pushStep, if_true, pushAllowance]
        omega
      · rw [producer_produce_of_ne same]
        simp [pushStep, Ne.symm same]
  | request out => exact Nat.zero_add _ ▸ Nat.le_refl _
  | consume =>
      change 0 + (w.consume.producer p).left ≤ _
      rw [consume_producer]
      exact Nat.zero_add _ ▸ Nat.le_refl _

theorem pays_pop (inv : Sized w) (action : Action Tid)
    (enabled : (World.machine cap Tid).Enabled w action) :
    popStep action + ((World.machine cap Tid).next w action).consumer.left ≤
      w.consumer.left + popAllowance action := by
  cases action with
  | call p a =>
      change 0 + (if a.len.toNat > kMaxPayloadBytes then w
        else w.setProducer p (.claim a)).consumer.left ≤ _
      split <;> exact Nat.zero_add _ ▸ Nat.le_refl _
  | produce p =>
      change 0 + (w.produce p).consumer.left ≤ _
      rw [consumer_produce]
      exact Nat.zero_add _ ▸ Nat.le_refl _
  | request out =>
      change 0 + (ConsumerPc.check out).left ≤ _
      simp [popAllowance, ConsumerPc.left]
  | consume =>
      have less := left_consume inv enabled
      change 1 + w.consume.consumer.left ≤ _
      simp only [popAllowance]
      omega

/-- From any state a run reaches, and for any scheduling of the threads, lapped or not: a producer
makes no more steps than its push has left and its later calls are allowed, and it is back from
them exactly when nothing is left; and so does the consumer. -/
theorem wait_free (before after : List (Action Tid)) (w v : World cap Tid)
    (reached : (World.machine cap Tid).Run Machine.Free World.init before w)
    (run : (World.machine cap Tid).Run Machine.Free w after v) :
    (∀ p, (after.map (pushStep p)).sum + (v.producer p).left ≤
        (w.producer p).left + (after.map (pushAllowance p)).sum ∧
      ((v.producer p).left = 0 ↔ v.producer p = .idle)) ∧
    (after.map popStep).sum + v.consumer.left ≤
        w.consumer.left + (after.map popAllowance).sum ∧
      (v.consumer.left = 0 ↔ v.consumer = .idle) := by
  have sized : Sized w :=
    reached.invariant sized_init (fun _ action inv _ _ => inv.next action)
  refine ⟨?_, ?_, ConsumerPc.left_eq_zero⟩
  · intro p
    refine ⟨?_, ProducerPc.left_eq_zero⟩
    exact run.amortized (fun w => (w.producer p).left) sized
      (fun _ action inv _ _ => inv.next action)
      (fun _ action _ enabled _ => pays_push p action enabled)
  · exact run.amortized (fun w => w.consumer.left) sized
      (fun _ action inv _ _ => inv.next action)
      (fun _ action inv enabled _ => pays_pop inv action enabled)

/-- The account of a push that a stalled one shares its slot with. -/
theorem wait_free_lapped :
    (lapped.map (pushStep true)).sum +
        ((lapped.foldl (World.machine pair Bool).next World.init).producer true).left ≤
      (lapped.map (pushAllowance true)).sum := by
  have run : (World.machine pair Bool).Run Machine.Free World.init lapped _ :=
    Machine.run_of_fires (by decide)
  have account := (wait_free [] lapped World.init _ .nil run).1 true
  simpa only [World.init, ProducerPc.left, Nat.zero_add] using account.1

end ChronoCap.Ring.Interleaving
