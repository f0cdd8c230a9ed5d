/- module: ChronoCap/Ring/Progress
   source: include/chrono_cap/mpsc_ring_buffer.hpp
   digest: What one flag tells: when a failed pop means that the ring is empty, and when a
           refused push means that it is full. -/

import ChronoCap.Ring.PopOrder

set_option autoImplicit false
set_option relaxedAutoImplicit false

namespace ChronoCap.Ring.Ledger

open ChronoCap.Foundation
open ChronoCap.WireFormat

variable {cap : Capacity} {t : Ledger cap}

theorem tryPop_false_iff (out : PoppedRecord) :
    (t.ring.tryPop out).1 = false ↔ ¬ t.Ready (cap.slot t.ring.readIndex) := by
  unfold Ready
  cases front : (t.ring.slots (cap.slot t.ring.readIndex)).ready with
  | true => simp [MpscRingBuffer.tryPop_ready front]
  | false => simp [MpscRingBuffer.tryPop_empty front]

theorem tryPush_false_iff {a : PushArgs} (fits : a.len.toNat ≤ kMaxPayloadBytes) :
    (t.ring.tryPush a).1 = false ↔ t.Ready (cap.slot t.ring.writeIndex) := by
  unfold Ready
  cases claimed : (t.ring.slots (cap.slot t.ring.writeIndex)).ready with
  | true => simp [MpscRingBuffer.tryPush_rejected fits claimed]
  | false => simp [MpscRingBuffer.tryPush_accepted fits claimed]

/-! Consumer progress. -/

/-- The consumer makes some more pops. -/
def drain (t : Ledger cap) (outs : List PoppedRecord) : Ledger cap := outs.foldl pop t

/-- What was accepted waits for no further push: once TryPop returns false, now or after some more
pops, every accepted record has been popped and no slot is ready. -/
def Progress (t : Ledger cap) : Prop :=
  ∀ outs out, ((t.drain outs).ring.tryPop out).1 = false →
    (∀ n < t.accepted.length, n ∈ (t.drain outs).popped.map Prod.fst) ∧
      ∀ i, ¬ (t.drain outs).Ready i

theorem window_cells_of_le {j : Nat} (beyond : cap.val ≤ j) : t.window.cells j = none := by
  simp [window, Nat.not_lt.mpr beyond]

theorem front_empty_iff : t.window.cells 0 = none ↔ ¬ t.Ready (cap.slot t.ring.readIndex) := by
  have front := window_cells_ne_none (t := t) cap.pos
  rw [cap.ahead_zero] at front
  rw [← front, not_not]

/-- The window shows every slot. -/
theorem none_ready_iff : (∀ i, ¬ t.Ready i) ↔ ∀ j, t.window.cells j = none := by
  constructor
  · intro none j
    by_cases hj : j < cap.val
    · by_contra filled
      exact none _ ((window_cells_ne_none hj).mp filled)
    · exact window_cells_of_le (Nat.le_of_not_lt hj)
  · intro none i ready
    have shown := (window_cells_ne_none (cap.distance_lt t.ring.readIndex i)).mpr
      (by rwa [cap.ahead_distance])
    exact shown (none _)

theorem window_pop_empty (free : ¬ t.Ready (cap.slot t.ring.readIndex)) (out : PoppedRecord) :
    (t.pop out).window = t.window := by
  rw [t.pop_empty free]

theorem contiguous_pop (whole : t.window.Contiguous) (out : PoppedRecord) :
    (t.pop out).window.Contiguous := by
  by_cases ready : t.Ready (cap.slot t.ring.readIndex)
  · rw [window_pop ready]
    exact whole.take
  · rwa [window_pop_empty ready]

theorem Conserved.all_popped (inv : Conserved t) (none : ∀ i, ¬ t.Ready i) :
    ∀ n < t.accepted.length, n ∈ t.popped.map Prod.fst := by
  intro n hn
  have held : ∑ i, t.holding i = 0 := by
    apply Finset.sum_eq_zero
    intro i _
    have free : (t.ring.slots i).ready = false := by simpa [Ready] using none i
    simp [holding, free]
  have count := inv.count
  rw [held, add_zero] at count
  have mem : n ∈ (t.popped.map Prod.fst : Multiset Nat) := by
    rw [count]
    exact Multiset.mem_range.mpr hn
  exact Multiset.mem_coe.mp mem

theorem progress_of_contiguous (inv : Conserved t) (whole : t.window.Contiguous) :
    t.Progress := by
  intro outs out failed
  induction outs generalizing t with
  | nil =>
      have front := front_empty_iff.mpr ((tryPop_false_iff out).mp failed)
      have none := none_ready_iff.mpr (whole.all_empty front)
      exact ⟨inv.all_popped none, none⟩
  | cons first outs ih =>
      have rest := ih (inv.pop first) (contiguous_pop whole first) failed
      rw [accepted_pop] at rest
      exact rest

theorem Progress.pop (progress : t.Progress) (out : PoppedRecord) : (t.pop out).Progress := by
  intro outs last failed
  rw [accepted_pop]
  exact progress (out :: outs) last failed

/-- Pops get as far as the first empty cell, and no further. -/
theorem Progress.empty_behind (progress : t.Progress) {j : Nat}
    (filled : t.window.Filled j) (empty : t.window.cells j = none) (k : Nat) :
    t.window.cells (j + k) = none := by
  induction j generalizing t with
  | zero =>
      have failed := (tryPop_false_iff {}).mpr (front_empty_iff.mp empty)
      exact none_ready_iff.mp (progress [] {} failed).2 _
  | succ j ih =>
      have ready : t.Ready (cap.slot t.ring.readIndex) := by
        by_contra free
        exact filled 0 (Nat.succ_pos j) (front_empty_iff.mpr free)
      have shifted : ∀ i, (t.pop {}).window.cells i = t.window.cells (i + 1) := by
        intro i
        rw [window_pop ready]
        rfl
      have rest := ih (progress.pop {}) (fun i hi => by
        rw [shifted]
        exact filled (i + 1) (by omega)) (by rw [shifted, empty])
      rw [shifted] at rest
      rwa [Nat.add_right_comm]

theorem Progress.contiguous (progress : t.Progress) : t.window.Contiguous := by
  intro j hj
  by_contra gap
  -- the first empty cell in front of entry `j`
  obtain ⟨i, hi, empty, filled⟩ : ∃ i < j, t.window.cells i = none ∧ t.window.Filled i := by
    have some_gap : ∃ i, i < j ∧ t.window.cells i = none := by
      simpa [SlotWindow.Filled] using gap
    classical
    refine ⟨Nat.find some_gap, (Nat.find_spec some_gap).1, (Nat.find_spec some_gap).2, ?_⟩
    intro k hk empty
    exact Nat.find_min some_gap hk ⟨hk.trans (Nat.find_spec some_gap).1, empty⟩
  have behind := progress.empty_behind filled empty (j - i)
  rw [Nat.add_sub_cancel' hi.le] at behind
  exact hj behind

theorem progress_iff (inv : Conserved t) : t.Progress ↔ t.window.Contiguous :=
  ⟨Progress.contiguous, progress_of_contiguous inv⟩

/-- A step keeps the consumer going exactly if it accepts no push behind an empty slot. -/
theorem progress_next_iff (inv : Conserved t) (progress : t.Progress) (op : Op) :
    ((machine cap).next t op).Progress ↔ Aligned t op := by
  cases op with
  | push a =>
      change (t.push a).Progress ↔ (t.Accepts a → t.ring.NoGap)
      rw [progress_iff (inv.push a)]
      by_cases h : t.Accepts a
      · rw [window_push h, SlotWindow.contiguous_place_iff progress.contiguous,
          filled_window_iff, forall_prop_of_true h]
      · rw [window_refused h]
        exact iff_of_true progress.contiguous (fun accepts => absurd accepts h)
  | pop out => exact iff_of_true (progress.pop out) trivial

/-- TryPop returns false on an empty ring only, at every point of a run and of the pops after it,
exactly if the run accepts no push behind an empty slot. -/
theorem progress_iff_aligned (cap : Capacity) (ops : List Op) :
    (∀ made, made <+: ops → (after made : Ledger cap).Progress) ↔
      (machine cap).Fires Aligned init ops := by
  have start : (init : Ledger cap).Progress := by
    apply progress_of_contiguous conserved_init
    rw [window_init]
    exact SlotWindow.contiguous_empty
  apply Machine.always_iff_fires (fun _ _ => trivial) Conserved conserved_init start
  · exact fun t op inv progress => progress_next_iff inv progress op
  · intro t op inv _ _
    cases op with
    | push a => exact inv.push a
    | pop out => exact inv.pop out

/-- Fill the ring, have one push refused, drain it, and push another. -/
def stuck : List Op :=
  [.push (stamped 1), .push (stamped 2), .push (stamped 3), .pop {}, .pop {}, .push (stamped 4)]

/-- The last record lies in the ring, and TryPop returns false. -/
theorem stuck_no_progress :
    ((after stuck : Ledger pair).ring.tryPop {}).1 = false ∧
      (after stuck : Ledger pair).accepted.map PushArgs.stampNs = [1, 2, 4] ∧
      (after stuck : Ledger pair).popped.map (fun p => p.2.stampNs) = [1, 2] ∧
      ¬ (after stuck : Ledger pair).Progress := by
  refine ⟨by decide, by decide, by decide, ?_⟩
  intro progress
  exact absurd ((progress [] {} (by decide)).1 2 (by decide)) (by decide)

/-! Refusal on a full ring. -/

def Full (t : Ledger cap) : Prop := t.accepted.length = t.popped.length + cap.val

instance (t : Ledger cap) : Decidable t.Full := inferInstanceAs (Decidable (_ = _))

/-- TryPush refuses what would fit into a slot exactly when as many records as there are slots are
accepted and not popped, that is, when every slot is occupied. -/
structure RefusesFullOnly (t : Ledger cap) : Prop where
  refused : ∀ a : PushArgs, a.len.toNat ≤ kMaxPayloadBytes →
    ((t.ring.tryPush a).1 = false ↔ t.Full)
  occupied : t.Full ↔ ∀ i, t.Ready i

/-- A pop that returns a record finds the write cursor in step with the records: the pushes refused
so far went round whole laps. -/
def InStep (t : Ledger cap) : Op → Prop
  | .push _ => True
  | .pop _ => t.Ready (cap.slot t.ring.readIndex) → t.ring.droppedCount.toNat % cap.val = 0

instance (t : Ledger cap) : DecidablePred (InStep t)
  | .push _ => .isTrue trivial
  | .pop _ => inferInstanceAs (Decidable (_ → _))

/-- Both cursors count, modulo the capacity: the records popped, and the pushes that claimed a
slot. Refused pushes are whole laps as long as there is room. -/
structure Counting (t : Ledger cap) : Prop where
  queue : SlotWindow.Queue t.window
  writeIndex : t.ring.writeIndex.toNat ≡
    t.accepted.length + t.ring.droppedCount.toNat [MOD cap.val]
  readIndex : t.ring.readIndex.toNat ≡ t.popped.length [MOD cap.val]
  laps : t.accepted.length < t.popped.length + cap.val →
    t.ring.droppedCount.toNat % cap.val = 0

theorem modEq_succ (i : UInt64) : (i + 1).toNat ≡ i.toNat + 1 [MOD cap.val] := by
  rw [UInt64.toNat_add]
  exact Nat.mod_mod_of_dvd _ cap.dvd_size

theorem claimed_of_modEq {k : Nat} (hk : k < cap.val)
    (cursors : t.ring.writeIndex.toNat ≡ t.ring.readIndex.toNat + k [MOD cap.val]) :
    t.claimed = k := by
  have slot : cap.ahead t.ring.readIndex k = cap.slot t.ring.writeIndex := by
    apply Fin.ext
    rw [cap.ahead_val, cap.slot_val]
    exact cursors.symm
  exact ((ahead_eq_slot_iff hk).mp slot).symm

theorem counting_init : Counting (init : Ledger cap) where
  queue := by
    rw [window_init]
    exact SlotWindow.queue_empty
  writeIndex := Nat.ModEq.refl 0
  readIndex := Nat.ModEq.refl 0
  laps _ := Nat.zero_mod _

theorem Counting.popped_le (inv : Counting t) : t.popped.length ≤ t.accepted.length := by
  simpa [window] using inv.queue.le

theorem Counting.ready_iff (inv : Counting t) {j : Nat} (hj : j < cap.val) :
    t.Ready (cap.ahead t.ring.readIndex j) ↔ t.popped.length + j < t.accepted.length := by
  have taken : t.window.taken.length = t.popped.length := by simp [window]
  rw [← window_cells_ne_none hj, inv.queue.cells, taken]
  change (if t.popped.length + j < t.accepted.length then _ else none) ≠ none ↔ _
  split <;> simp_all

/-- While there is room, the next push goes right behind the last record. -/
theorem Counting.claimed (inv : Counting t)
    (room : t.accepted.length < t.popped.length + cap.val) :
    t.popped.length + t.claimed = t.accepted.length := by
  have le := inv.popped_le
  have whole : t.ring.droppedCount.toNat ≡ 0 [MOD cap.val] := inv.laps room
  have cursors : t.ring.writeIndex.toNat ≡
      t.ring.readIndex.toNat + (t.accepted.length - t.popped.length) [MOD cap.val] := by
    calc t.ring.writeIndex.toNat
        ≡ t.accepted.length + t.ring.droppedCount.toNat [MOD cap.val] := inv.writeIndex
      _ ≡ t.accepted.length + 0 [MOD cap.val] := whole.add_left _
      _ = t.popped.length + (t.accepted.length - t.popped.length) := by omega
      _ ≡ _ [MOD cap.val] := (inv.readIndex.symm).add_right _
  rw [claimed_of_modEq (by omega) cursors]
  omega

theorem Counting.busy_iff (inv : Counting t) (conserved : Conserved t) :
    t.Ready (cap.slot t.ring.writeIndex) ↔ t.Full := by
  have le := conserved.length_le
  have slot : cap.ahead t.ring.readIndex t.claimed = cap.slot t.ring.writeIndex :=
    cap.ahead_distance _ _
  have bound := claimed_lt (t := t)
  rw [← slot, inv.ready_iff bound, Full]
  constructor
  · intro busy
    by_contra room
    have behind := inv.claimed (by omega)
    omega
  · intro full
    omega

theorem Counting.refusesFullOnly (inv : Counting t) (conserved : Conserved t) :
    t.RefusesFullOnly where
  refused a fits := (tryPush_false_iff fits).trans (inv.busy_iff conserved)
  occupied := by
    constructor
    · intro full i
      have shown := inv.ready_iff (cap.distance_lt t.ring.readIndex i)
      rw [cap.ahead_distance] at shown
      have near := cap.distance_lt t.ring.readIndex i
      have full : t.accepted.length = t.popped.length + cap.val := full
      exact shown.mpr (by omega)
    · intro all
      exact (inv.busy_iff conserved).mp (all _)

theorem Counting.push (inv : Counting t) (conserved : Conserved t) (a : PushArgs) :
    Counting (t.push a) := by
  by_cases fits : a.len.toNat ≤ kMaxPayloadBytes
  · by_cases busy : t.Ready (cap.slot t.ring.writeIndex)
    · -- a full ring: one more push of a lap that is refused
      have full : t.accepted.length = t.popped.length + cap.val :=
        (inv.busy_iff conserved).mp busy
      rw [t.push_rejected fits busy]
      refine ⟨inv.queue, ?_, inv.readIndex, fun room => absurd full (by simpa using room.ne)⟩
      calc (t.ring.writeIndex + 1).toNat
          ≡ t.ring.writeIndex.toNat + 1 [MOD cap.val] := modEq_succ _
        _ ≡ t.accepted.length + t.ring.droppedCount.toNat + 1 [MOD cap.val] :=
            inv.writeIndex.add_right 1
        _ ≡ t.accepted.length + (t.ring.droppedCount + 1).toNat [MOD cap.val] :=
            ((modEq_succ _).symm).add_left _
    · have h : t.Accepts a := ⟨fits, busy⟩
      have room : t.accepted.length < t.popped.length + cap.val := by
        have le := conserved.length_le
        have notFull : ¬ t.Full := fun full => busy ((inv.busy_iff conserved).mpr full)
        unfold Full at notFull
        omega
      have behind := inv.claimed room
      have filled : t.window.Filled t.claimed := by
        intro j hj
        have bound := claimed_lt (t := t)
        rw [window_cells_ne_none (by omega), inv.ready_iff (by omega)]
        omega
      refine ⟨?_, ?_, ?_, ?_⟩
      · rw [window_push h]
        exact inv.queue.place (window_claimed_free h) filled
      · rw [t.push_accepted h, List.length_append, Nat.add_right_comm]
        exact (modEq_succ _).trans (inv.writeIndex.add_right 1)
      · rw [t.push_accepted h]
        exact inv.readIndex
      · rw [t.push_accepted h]
        exact fun _ => inv.laps room
  · rw [t.push_oversized (Nat.lt_of_not_le fits)]
    exact inv

theorem Counting.pop (inv : Counting t) {out : PoppedRecord} (meets : t.InStep (.pop out)) :
    Counting (t.pop out) := by
  by_cases ready : t.Ready (cap.slot t.ring.readIndex)
  · refine ⟨?_, ?_, ?_, ?_⟩
    · rw [window_pop ready]
      exact inv.queue.take (window_front ready)
    · rw [t.pop_ready ready]
      exact inv.writeIndex
    · rw [t.pop_ready ready, List.length_append]
      exact (modEq_succ _).trans (inv.readIndex.add_right 1)
    · rw [t.pop_ready ready]
      exact fun _ => meets ready
  · rw [t.pop_empty ready]
    exact inv

/-- After a pop from a full ring the next push must find the slot just emptied. -/
theorem Counting.laps_of_refuses (inv : Counting t) (conserved : Conserved t)
    {out : PoppedRecord} (refuses : (t.pop out).RefusesFullOnly) : t.InStep (.pop out) := by
  intro ready
  by_cases room : t.accepted.length < t.popped.length + cap.val
  · exact inv.laps room
  · have le := conserved.length_le
    have full : t.accepted.length = t.popped.length + cap.val := by omega
    have all : ∀ i, t.Ready i := (inv.refusesFullOnly conserved).occupied.mp full
    have accepts : ¬ (t.pop out).Ready (cap.slot t.ring.writeIndex) := by
      have notFull : ¬ (t.pop out).Full := by
        rw [Full, accepted_pop, t.pop_ready ready, List.length_append, List.length_singleton]
        omega
      have answer := refuses.refused (stamped 0) (Nat.zero_le _)
      rw [tryPush_false_iff (Nat.zero_le _), t.pop_ready ready] at answer
      rw [t.pop_ready ready] at notFull ⊢
      exact fun busy => notFull (answer.mp busy)
    have same : cap.slot t.ring.writeIndex = cap.slot t.ring.readIndex := by
      by_contra other
      apply accepts
      rw [t.pop_ready ready]
      simp only [Ready, Function.update_of_ne other]
      exact all _
    have cursors : t.ring.writeIndex.toNat ≡ t.ring.readIndex.toNat [MOD cap.val] := by
      have vals := congrArg Fin.val same
      rwa [cap.slot_val, cap.slot_val] at vals
    have turns : t.popped.length + (cap.val + t.ring.droppedCount.toNat) ≡
        t.popped.length + 0 [MOD cap.val] := by
      calc t.popped.length + (cap.val + t.ring.droppedCount.toNat)
          = t.accepted.length + t.ring.droppedCount.toNat := by omega
        _ ≡ t.ring.writeIndex.toNat [MOD cap.val] := inv.writeIndex.symm
        _ ≡ t.ring.readIndex.toNat [MOD cap.val] := cursors
        _ ≡ t.popped.length + 0 [MOD cap.val] := inv.readIndex
    have lap := Nat.ModEq.add_left_cancel' _ turns
    rwa [Nat.ModEq, Nat.add_mod_left, Nat.zero_mod] at lap

theorem refuses_next_iff (inv : Counting t) (conserved : Conserved t) (op : Op) :
    ((machine cap).next t op).RefusesFullOnly ↔ t.InStep op := by
  cases op with
  | push a =>
      have next := (inv.push conserved a).refusesFullOnly (conserved.push a)
      exact iff_of_true next trivial
  | pop out =>
      refine ⟨inv.laps_of_refuses conserved, ?_⟩
      intro meets
      exact (inv.pop meets).refusesFullOnly (conserved.pop out)

/-- A push that fits into a slot is refused only on a full ring, at every point of a run, exactly
if every pop of the run that returns a record finds the refused pushes to be whole laps. -/
theorem refusesFullOnly_iff_inStep (cap : Capacity) (ops : List Op) :
    (∀ made, made <+: ops → (after made : Ledger cap).RefusesFullOnly) ↔
      (machine cap).Fires InStep init ops := by
  apply Machine.always_iff_fires (fun _ _ => trivial) (fun t => Counting t ∧ Conserved t)
    ⟨counting_init, conserved_init⟩ (counting_init.refusesFullOnly conserved_init)
  · exact fun t op inv _ => refuses_next_iff inv.1 inv.2 op
  · rintro t op ⟨inv, conserved⟩ - meets
    cases op with
    | push a => exact ⟨inv.push conserved a, conserved.push a⟩
    | pop out => exact ⟨inv.pop meets, conserved.pop out⟩

/-- Fill the ring, have one push refused, and pop one record. -/
def skewed : List Op := [.push (stamped 1), .push (stamped 2), .push (stamped 3), .pop {}]

/-- One record is left in a ring of two, and a push is refused. -/
theorem skewed_refuses :
    (after skewed : Ledger pair).accepted.length = 2 ∧
      (after skewed : Ledger pair).popped.length = 1 ∧
      ((after skewed : Ledger pair).ring.tryPush (stamped 4)).1 = false ∧
      ¬ (after skewed : Ledger pair).RefusesFullOnly := by
  refine ⟨by decide, by decide, by decide, ?_⟩
  intro refuses
  exact absurd ((refuses.refused (stamped 4) (by decide)).mp (by decide)) (by decide)

end ChronoCap.Ring.Ledger
