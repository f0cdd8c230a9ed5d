/- module: ChronoCap/Ring/PopOrder
   source: include/chrono_cap/mpsc_ring_buffer.hpp
   digest: The ring is a window of slots; records leave it in order unless one was put
           behind an empty slot, which a refused push makes possible. -/

import ChronoCap.Foundation.SlotWindow
import ChronoCap.Ring.Ledger

set_option autoImplicit false
set_option relaxedAutoImplicit false

namespace ChronoCap.Ring.Ledger

open ChronoCap.Foundation
open ChronoCap.WireFormat

variable {cap : Capacity}

/-- The slots seen from the one the consumer reads next. -/
def window (t : Ledger cap) : SlotWindow where
  cells j := bif decide (j < cap.val) && (t.ring.slots (cap.ahead t.ring.readIndex j)).ready then
    some (t.owner (cap.ahead t.ring.readIndex j)) else none
  placed := t.accepted.length
  behind := t.behind
  taken := t.popped.map Prod.fst

/-- Where, in the window, the next push goes. -/
def claimed (t : Ledger cap) : Nat := cap.distance t.ring.readIndex (cap.slot t.ring.writeIndex)

variable {t : Ledger cap}

theorem claimed_lt : t.claimed < cap.val := cap.distance_lt _ _

theorem ahead_eq_slot_iff {j : Nat} (hj : j < cap.val) :
    cap.ahead t.ring.readIndex j = cap.slot t.ring.writeIndex ↔ j = t.claimed := by
  constructor
  · intro h
    apply cap.ahead_inj hj claimed_lt
    rw [h, claimed, cap.ahead_distance]
  · rintro rfl
    exact cap.ahead_distance _ _

theorem window_cells_ne_none {j : Nat} (hj : j < cap.val) :
    t.window.cells j ≠ none ↔ t.Ready (cap.ahead t.ring.readIndex j) := by
  simp only [window, hj, decide_true, Bool.true_and, Ready]
  cases (t.ring.slots (cap.ahead t.ring.readIndex j)).ready <;> simp

theorem filled_window_iff : t.window.Filled t.claimed ↔ t.ring.NoGap := by
  have bound := claimed_lt (t := t)
  constructor
  · intro filled j hj
    exact (window_cells_ne_none (hj.trans bound)).mp (filled j hj)
  · intro noGap j hj
    exact (window_cells_ne_none (hj.trans bound)).mpr (noGap j hj)

theorem window_claimed_free {a : PushArgs} (h : t.Accepts a) : t.window.cells t.claimed = none := by
  by_contra taken
  have ready := (window_cells_ne_none claimed_lt).mp taken
  rw [claimed, cap.ahead_distance] at ready
  exact h.free ready

theorem window_push {a : PushArgs} (h : t.Accepts a) :
    (t.push a).window = t.window.place t.claimed := by
  rw [t.push_accepted h]
  ext1
  · funext j
    rw [SlotWindow.cells_place]
    by_cases hj : j < cap.val
    · by_cases here : j = t.claimed
      · have slot := (ahead_eq_slot_iff hj).mpr here
        rw [if_pos here]
        simp [window, slot, Slot.fill, hj]
      · have slot : cap.ahead t.ring.readIndex j ≠ cap.slot t.ring.writeIndex :=
          fun eq => here ((ahead_eq_slot_iff hj).mp eq)
        rw [if_neg here]
        simp only [window, Function.update_of_ne slot]
    · have far : j ≠ t.claimed := by
        rintro rfl
        exact hj claimed_lt
      rw [if_neg far]
      simp [window, hj]
  · simp [window, SlotWindow.place]
  · by_cases noGap : t.ring.NoGap
    · have filled := filled_window_iff.mpr noGap
      simp only [SlotWindow.place, if_pos filled]
      simp [window, noGap]
    · have gap : ¬ t.window.Filled t.claimed := fun filled => noGap (filled_window_iff.mp filled)
      simp only [SlotWindow.place, if_neg gap]
      simp [window, noGap]
  · rfl

theorem window_refused {a : PushArgs} (h : ¬ t.Accepts a) : (t.push a).window = t.window := by
  obtain ⟨w, d, eq⟩ := t.push_refused h
  rw [eq]
  rfl

theorem window_front (h : t.Ready (cap.slot t.ring.readIndex)) :
    t.window.cells 0 = some (t.owner (cap.slot t.ring.readIndex)) := by
  have ready : (t.ring.slots (cap.slot t.ring.readIndex)).ready = true := h
  simp [window, cap.pos, ready]

theorem window_pop (h : t.Ready (cap.slot t.ring.readIndex)) (out : PoppedRecord) :
    (t.pop out).window = t.window.take := by
  have front := window_front h
  rw [t.pop_ready h]
  ext1
  · funext j
    simp only [window, SlotWindow.take, cap.ahead_succ]
    rcases Nat.lt_trichotomy (j + 1) cap.val with lt | eq | gt
    · have slot : cap.ahead t.ring.readIndex (j + 1) ≠ cap.slot t.ring.readIndex := by
        intro eq
        rw [← cap.ahead_zero] at eq
        exact absurd (cap.ahead_inj lt cap.pos eq) (Nat.succ_ne_zero j)
      simp only [Function.update_of_ne slot, lt, show j < cap.val by omega]
    · -- the slot that comes into view at the far end is the one just emptied
      rw [eq, cap.ahead_cap]
      simp
    · simp [show ¬ j < cap.val by omega, show ¬ j + 1 < cap.val by omega]
  · rfl
  · rfl
  · rw [SlotWindow.take, front]
    simp [window]

theorem window_init : (init : Ledger cap).window = SlotWindow.empty := by
  ext1 <;> simp [window, init, SlotWindow.empty, MpscRingBuffer.init]

/-- Every run of the ring is a run of its window, with the accepted pushes as placements. -/
theorem window_run {allowed : Ledger cap → Op → Prop}
    (allowed' : SlotWindow → SlotWindow.Op → Prop)
    (place : ∀ t a, t.Accepts a → allowed t (.push a) → allowed' t.window (.place t.claimed))
    (take : ∀ t : Ledger cap, allowed' t.window .take) {ops : List Op}
    (run : (machine cap).Run allowed init ops t) :
    ∃ moves, SlotWindow.machine.Run allowed' SlotWindow.empty moves t.window := by
  induction run with
  | nil =>
      refine ⟨[], ?_⟩
      rw [window_init]
      exact .nil
  | @snoc ops t op _ _ meets ih =>
      obtain ⟨moves, run⟩ := ih
      cases op with
      | push a =>
          by_cases h : t.Accepts a
          · have next := SlotWindow.run_place run (window_claimed_free h) (place t a h meets)
            rw [← window_push h] at next
            exact ⟨_, next⟩
          · exact ⟨moves, (window_refused h).symm ▸ run⟩
      | pop out =>
          by_cases h : t.Ready (cap.slot t.ring.readIndex)
          · have enabled : t.window.cells 0 ≠ none := by simp [window_front h]
            have next := SlotWindow.run_take run enabled (take t)
            rw [← window_pop h out] at next
            exact ⟨_, next⟩
          · refine ⟨moves, ?_⟩
            change SlotWindow.machine.Run allowed' SlotWindow.empty _ (t.pop out).window
            rw [t.pop_empty h]
            exact run

/-- Records come out in the order in which their pushes were accepted. -/
def PopsInOrder (t : Ledger cap) : Prop := (t.popped.map Prod.fst).Pairwise (· < ·)

instance (t : Ledger cap) : Decidable t.PopsInOrder :=
  inferInstanceAs (Decidable (List.Pairwise _ _))

/-- An accepted push finds no empty slot between the one to be popped next and its own. -/
def Aligned (t : Ledger cap) : Op → Prop
  | .push a => t.Accepts a → t.ring.NoGap
  | .pop _ => True

instance (t : Ledger cap) : DecidablePred (Aligned t)
  | .push a => inferInstanceAs (Decidable (t.Accepts a → t.ring.NoGap))
  | .pop _ => .isTrue trivial

/-- Under that condition the ring is a queue. -/
theorem queue_of_aligned {ops : List Op} (run : (machine cap).Run Aligned init ops t) :
    SlotWindow.Queue t.window := by
  obtain ⟨moves, run⟩ := window_run SlotWindow.NoGap
    (fun t a h meets => filled_window_iff.mpr (meets h)) (fun _ => trivial) run
  exact SlotWindow.queue_of_noGap run

/-- Pops numbered from the first push on hand over the first accepted records. -/
theorem Conserved.popped_records (inv : Conserved t)
    (numbers : t.popped.map Prod.fst = List.range t.popped.length) :
    t.popped.map (fun p => p.2.record) =
      (t.accepted.map PushArgs.record).take t.popped.length := by
  have each : ∀ (n : Nat) (hn : n < t.popped.length), t.record n = some t.popped[n].2.record := by
    intro n hn
    have number : t.popped[n].1 = n := by
      have at_n := List.getElem_of_eq numbers (i := n) (by simpa using hn)
      simpa using at_n
    have drained := (inv.drained t.popped[n] (List.getElem_mem hn)).1
    rwa [number] at drained
  have le : t.popped.length ≤ t.accepted.length := by
    by_contra more
    have beyond := each t.accepted.length (by omega)
    rw [record, List.getElem?_eq_none (by simp)] at beyond
    cases beyond
  apply List.ext_getElem
  · simp [le]
  · intro n hn _
    have hn : n < t.popped.length := by simpa using hn
    have drained := each n hn
    rw [record, List.getElem?_eq_getElem (by simp; omega)] at drained
    simpa using (Option.some.inj drained).symm

/-- The popped records are the first accepted ones. -/
theorem popped_eq_take {ops : List Op} (run : (machine cap).Run Aligned init ops t) :
    t.popped.map (fun p => p.2.record) =
      (t.accepted.map PushArgs.record).take t.popped.length := by
  apply (conserved_of_run run.free).popped_records
  simpa [window] using (queue_of_aligned run).taken

/-- Order of the ring. With every push aligned the popped records are the accepted ones from the
first on; and in any run they are in order exactly if none of them was put behind an empty slot. -/
theorem pops_in_order (cap : Capacity) :
    (∀ (ops : List Op) (t : Ledger cap), (machine cap).Run Aligned init ops t →
      t.PopsInOrder ∧ t.popped.map (fun p => p.2.record) =
        (t.accepted.map PushArgs.record).take t.popped.length) ∧
    ∀ ops : List Op, (after ops : Ledger cap).PopsInOrder ↔
      ∀ p ∈ (after ops : Ledger cap).popped, p.1 ∉ (after ops : Ledger cap).behind := by
  constructor
  · intro ops t run
    refine ⟨?_, popped_eq_take run⟩
    have taken := (queue_of_aligned run).taken
    change (t.window.taken).Pairwise (· < ·)
    rw [taken]
    exact List.pairwise_lt_range
  · intro ops
    obtain ⟨moves, run⟩ := window_run Machine.Free (fun _ _ _ _ => trivial) (fun _ => trivial)
      (@run_after cap ops)
    have order := SlotWindow.inOrder_iff run
    simpa [SlotWindow.InOrder, PopsInOrder, window] using order

/-- Fill the ring, have one push refused, drain it, and push two more. -/
def overfull : List Op :=
  [.push (stamped 1), .push (stamped 2), .push (stamped 3), .pop {}, .pop {},
    .push (stamped 4), .push (stamped 5), .pop {}, .pop {}]

/-- The refused push moved the cursor past a slot nobody filled: 5 comes out before 4. -/
theorem overfull_out_of_order :
    (after overfull : Ledger pair).accepted.map PushArgs.stampNs = [1, 2, 4, 5] ∧
      (after overfull : Ledger pair).popped.map (fun p => p.2.stampNs) = [1, 2, 5, 4] ∧
      ¬ (after overfull : Ledger pair).PopsInOrder := by
  refine ⟨by decide, by decide, by decide⟩

end ChronoCap.Ring.Ledger
